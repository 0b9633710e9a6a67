import LiftedElimination.Proofs.Normal

/-!
# Expansion

Taking one individual out of a counting formula does not change what a parfactor means: the
histogram of the group is that of the others with one more individual of the value that is read.

* `mem_counted`     the term names somebody of the group under every grounding;
* `histogram_excluding`   the histogram with and without one individual;
* `Expanded.value_of_rest`, `Expanded.value_of_last`   the entries of the expanded parfactor;
* `restates_expand`  the expanded parfactor restates the parfactor.
-/

namespace LiftedElimination

open Finset

variable {K : Type}

/-! ## groups without one individual -/

namespace CountingFormula

variable {f : CountingFormula} {t : Term} {γ : Valuation} {w : World}

/-- **One individual more**: the histogram of the group is that of the others with one more
individual of the value. -/
theorem histogram_excluding (ht : t ≠ .var f.bound) (hmem : t.eval γ ∈ f.counted γ) (w : World) :
    f.histogram γ w
      = ⟨((f.excluding t).histogram γ w).counts.modify (w (f.member γ (t.eval γ))) (· + 1)⟩ := by
  have hcard : ∀ v, ((f.counted γ).filter fun c => w (f.member γ c) = v).card
      = (((f.counted γ).erase (t.eval γ)).filter fun c => w (f.member γ c) = v).card
        + if w (f.member γ (t.eval γ)) = v then 1 else 0 := by
    intro v
    rw [filter_erase]
    split
    · rename_i hv
      rw [card_erase_add_one (mem_filter.mpr ⟨hmem, hv⟩)]
    · rename_i hv
      have hnot : t.eval γ ∉ (f.counted γ).filter fun c => w (f.member γ c) = v :=
        fun h => hv (mem_filter.mp h).2
      rw [erase_eq_of_notMem hnot, Nat.add_zero]
  have hrest : (f.excluding t).histogram γ w = ⟨(List.range f.inner.range.size).map fun v =>
      (((f.counted γ).erase (t.eval γ)).filter fun c => w (f.member γ c) = v).card⟩ := by
    rw [histogram, counted_excluding ht]
    rfl
  rw [hrest, histogram]
  refine congrArg Histogram.mk (List.ext_getElem (by simp) fun v hv _ => ?_)
  rw [List.getElem_map, List.getElem_range, List.getElem_modify, List.getElem_map,
    List.getElem_range, hcard]
  split
  · rfl
  · exact Nat.add_zero _

/-- what the group and the one taken out depend on is what the whole group depends on -/
theorem image_excluding (ht : t ≠ .var f.bound) (hmem : t.eval γ ∈ f.counted γ) :
    insert (f.member γ (t.eval γ)) (((f.excluding t).counted γ).image (f.member γ))
      = (f.counted γ).image (f.member γ) := by
  rw [counted_excluding ht, ← image_insert, insert_erase hmem]

theorem mem_variables_instantiate_of {x : LogVar}
    (hx : x ∈ (f.instantiate t).variables) :
    (x ∈ f.inner.variables ∧ x ≠ f.bound) ∨ t = .var x := by
  obtain ⟨y, hy, hyx⟩ := Atom.mem_variables_apply.mp hx
  rcases Substitution.apply_single_eq_var.mp hyx with ⟨heq, hne⟩ | ⟨-, ht⟩
  · cases heq
    exact .inl ⟨hy, hne⟩
  · exact .inr ht

theorem mem_variables_instantiate_mpr {x : LogVar} (hx : x ∈ f.inner.variables)
    (hne : x ≠ f.bound) : x ∈ (f.instantiate t).variables :=
  Atom.mem_variables_apply.mpr ⟨x, hx, Substitution.apply_single_ne hne⟩

theorem mem_freeVars_excluding (ht : t ≠ .var f.bound) {x : LogVar} :
    x ∈ (f.excluding t).freeVars ↔ x ∈ f.freeVars ∨ t = .var x := by
  rw [mem_freeVars, mem_freeVars, mem_excludedVars_iff, mem_exclusions_excluding ht,
    mem_excludedVars_iff, eq_comm (a := Term.var x), ← or_assoc, or_right_comm]
  rfl

end CountingFormula

/-! ## expanded parfactors -/

namespace Parfactor

variable {p q : Parfactor K} {f : CountingFormula} {t : Term} {γ : Valuation} {w : World}

theorem ExpandsOn.ne_bound (h : p.ExpandsOn f t) : t ≠ .var f.bound := by
  rintro rfl
  exact (CountingFormula.isExpandable_var h.expandable).1 rfl

theorem ExpandsOn.notMem (h : p.ExpandsOn f t) :
    Constraint.ordered f.bound t ∉ f.constraints := by
  cases t with
  | var x => exact (CountingFormula.isExpandable_var h.expandable).2.2
  | const c =>
    intro hmem
    have hc := (CountingFormula.isExpandable_const h.expandable).2
    exact (LogVar.mem_domain.mp hc).2 _ hmem
      (Constraint.excluded?_eq_some.mpr ⟨rfl, rfl⟩)

/-- one individual fewer is left -/
theorem ExpandsOn.domainSize (h : p.ExpandsOn f t) :
    (f.excluding t).domainSize = f.domainSize - 1 :=
  CountingFormula.domainSize_excluding h.ne_bound h.notMem fun _ hc =>
    (CountingFormula.isExpandable_const (hc ▸ h.expandable)).2

/-- whoever is excluded from the group is kept apart from the term -/
theorem ExpandsOn.separates (h : p.ExpandsOn f t) {y : LogVar} (hy : y ∈ f.excludedVars) :
    p.separates y t = true := by
  have hnone := List.findSome?_eq_none_iff.mp h.separated _
    (CountingFormula.mem_excludedVars_iff.mp hy)
  by_contra hs
  simp [hs] at hnone

theorem ExpandsOn.separates_const {x : LogVar} {c : Constant} (h : p.ExpandsOn f (.var x))
    (hc : .const c ∈ f.exclusions) : p.separates x (.const c) = true := by
  have hnone := List.findSome?_eq_none_iff.mp h.separated _ hc
  by_contra hs
  simp [hs] at hnone

/-- **The term names somebody of the group**, under every grounding. -/
theorem ExpandsOn.mem_counted (hf : f.Valid) (h : p.ExpandsOn f t) (hγ : γ ∈ p.solutions) :
    t.eval γ ∈ f.counted γ := by
  obtain ⟨⟨hpop, hholds⟩, -⟩ := mem_solutions.mp hγ
  rw [hf.mem_counted_iff]
  cases t with
  | const c =>
    obtain ⟨hvars, hc⟩ := CountingFormula.isExpandable_const h.expandable
    refine ⟨hc, fun x hx => ?_⟩
    rw [hvars] at hx
    exact absurd hx List.not_mem_nil
  | var x =>
    obtain ⟨-, hbound, -⟩ := CountingFormula.isExpandable_var h.expandable
    have hx : γ x ∈ f.bound.population := hbound ▸ hpop x (h.logVar x rfl)
    refine ⟨CountingFormula.mem_individuals.mpr ⟨hx, fun hc => ?_⟩, fun y hy => ?_⟩
    · have hsep := h.separates_const hc
      rw [Parfactor.separates, Bool.or_eq_true, decide_eq_true_eq] at hsep
      rcases hsep with hout | hsep
      · exact hout (hpop x (h.logVar x rfl))
      · exact hholds.of_separates hsep rfl
    · have hsep := h.separates hy
      rw [Parfactor.separates, Bool.and_eq_true] at hsep
      exact hholds.of_separates hsep.2

/-- a variable excluded from the group stays a logical variable -/
theorem ExpandsOn.mem_variables (h : p.ExpandsOn f t) {y : LogVar} (hy : y ∈ f.excludedVars) :
    y ∈ p.constraints.variables := by
  cases t with
  | const c =>
    rw [(CountingFormula.isExpandable_const h.expandable).1] at hy
    exact absurd hy List.not_mem_nil
  | var x =>
    have hsep := h.separates hy
    rw [Parfactor.separates, Bool.and_eq_true] at hsep
    exact ConstraintSet.mem_variables.mpr ⟨_, ConstraintSet.separates_iff.mp hsep.2,
      Constraint.mem_variables_ordered.mpr (.inl rfl)⟩

/-! ### the table -/

theorem addOne_ok {counts : List Nat} {v : Nat} (h : v < counts.length) :
    addOne counts v = .ok ⟨counts.modify v (· + 1)⟩ := if_pos h

theorem split_at {α : Type} {l : List α} {i : Nat} {a : α} (h : l[i]? = some a) :
    l = l.take i ++ a :: l.drop (i + 1) ∧ (l.take i).length = i := by
  obtain ⟨hlt, rfl⟩ := List.getElem?_eq_some_iff.mp h
  refine ⟨?_, List.length_take_of_le hlt.le⟩
  rw [List.getElem_cons_drop, List.take_append_drop]

theorem getD_idxOf? {α : Type} [DecidableEq α] {l : List α} {a : α} (h : a ∈ l) (d : Nat) :
    (l.idxOf? a).getD d = l.idxOf a := by
  rw [List.idxOf_eq_getD_idxOf?]
  cases hi : l.idxOf? a with
  | none => exact absurd h (List.idxOf?_eq_none_iff.mp hi)
  | some i => rfl

/-- the entry for the value `v` of the one taken out and the histogram at place `j` of the others -/
theorem expandEntry_around {rest : CountingFormula} {h : Histogram} {i v j : Nat}
    {before behind : List Nat} (hlen : before.length = i) (hj : rest.histograms[j]? = some h)
    (hv : v < h.counts.length) : p.expandEntry f rest i (before ++ v :: j :: behind)
      = p.factor.entry p.sizes
        (before ++ (f.histograms.idxOf? ⟨h.counts.modify v (· + 1)⟩).getD 0 :: behind) := by
  have hvalue : (before ++ v :: j :: behind).getD i 0 = v := by
    rw [List.getD_eq_getElem?_getD, List.getElem?_append_right hlen.le, hlen, Nat.sub_self]
    rfl
  have hothers : (before ++ v :: j :: behind).getD (i + 1) 0 = j := by
    rw [List.getD_eq_getElem?_getD, List.getElem?_append_right (by omega), hlen,
      Nat.add_sub_cancel_left]
    rfl
  have htake : (before ++ v :: j :: behind).take i = before := List.take_left' hlen
  have hdrop : (before ++ v :: j :: behind).drop (i + 2) = behind := by
    rw [List.drop_append, hlen, Nat.add_sub_cancel_left, List.drop_eq_nil_of_le (by omega)]
    rfl
  unfold expandEntry
  rw [hothers, List.getElem?_toArray, hj, hvalue, htake, hdrop]
  dsimp only
  rw [addOne_ok hv]
  rfl

/-- the entry for the value `v` of the only individual -/
theorem expandLastEntry_around {i v : Nat} {before behind : List Nat} (hlen : before.length = i)
    (hv : v < f.inner.range.size) : p.expandLastEntry f i (before ++ v :: behind)
      = p.factor.entry p.sizes (before ++ (f.histograms.idxOf?
        ⟨(List.replicate f.inner.range.size 0).modify v (· + 1)⟩).getD 0 :: behind) := by
  have hvalue : (before ++ v :: behind).getD i 0 = v := by
    rw [List.getD_eq_getElem?_getD, List.getElem?_append_right hlen.le, hlen, Nat.sub_self]
    rfl
  have htake : (before ++ v :: behind).take i = before := List.take_left' hlen
  have hdrop : (before ++ v :: behind).drop (i + 1) = behind := by
    rw [List.drop_append, hlen, Nat.add_sub_cancel_left, List.drop_eq_nil_of_le (by omega)]
    rfl
  unfold expandLastEntry
  rw [hvalue, htake, hdrop, addOne_ok (by rwa [List.length_replicate])]
  rfl

section
variable [ExactScalar K]

/-- the value of the one taken out, followed by the histogram of the others -/
theorem lookup_of_expandEntry {i : Nat} {before behind : List Nat} {x : K}
    (hlen : before.length = i) (ht : t ≠ .var f.bound) (hmem : t.eval γ ∈ f.counted γ)
    (hexact : f.Exact γ) (hrest : (f.excluding t).Exact γ)
    (hw : w.Legal ((Prv.count f).owned γ))
    (h : p.expandEntry f (f.excluding t) i
      (before ++ w (f.member γ (t.eval γ)) :: (Prv.count (f.excluding t)).read γ w :: behind)
      = .ok x) :
    p.factor.lookup p.sizes (before ++ (Prv.count f).read γ w :: behind) = x := by
  have hlegal : ∀ c ∈ f.counted γ, w (f.member γ c) < f.inner.range.size := fun c hc =>
    hw _ (mem_image_of_mem _ hc)
  have hrestMem : (f.excluding t).histogram γ w ∈ (f.excluding t).histograms := by
    refine CountingFormula.histogram_mem hrest.card fun c hc => hlegal c ?_
    rw [CountingFormula.counted_excluding ht] at hc
    exact mem_of_mem_erase hc
  have hlength : ((f.excluding t).histogram γ w).counts.length = f.inner.range.size := by
    rw [CountingFormula.histogram, List.length_map, List.length_range]
    rfl
  have hidx : (f.histograms.idxOf? (f.histogram γ w)).getD 0 = (Prv.count f).read γ w :=
    getD_idxOf? (CountingFormula.histogram_mem hexact.card hlegal) 0
  have hget : (f.excluding t).histograms[(Prv.count (f.excluding t)).read γ w]?
      = some ((f.excluding t).histogram γ w) := List.getElem?_idxOf hrestMem
  rw [expandEntry_around hlen hget (hlength.symm ▸ hlegal _ hmem),
    ← CountingFormula.histogram_excluding ht hmem, hidx] at h
  exact Factor.lookup_of_entry h

/-- the value of the only individual of the group -/
theorem lookup_of_expandLastEntry {i : Nat} {before behind : List Nat} {x : K}
    (hlen : before.length = i) (hcounted : f.counted γ = {t.eval γ}) (hexact : f.Exact γ)
    (hw : w.Legal ((Prv.count f).owned γ))
    (h : p.expandLastEntry f i (before ++ w (f.member γ (t.eval γ)) :: behind) = .ok x) :
    p.factor.lookup p.sizes (before ++ (Prv.count f).read γ w :: behind) = x := by
  have hlegal : ∀ c ∈ f.counted γ, w (f.member γ c) < f.inner.range.size := fun c hc =>
    hw _ (mem_image_of_mem _ hc)
  have hidx : (f.histograms.idxOf? (f.histogram γ w)).getD 0 = (Prv.count f).read γ w :=
    getD_idxOf? (CountingFormula.histogram_mem hexact.card hlegal) 0
  have hsole : f.histogram γ w
      = ⟨(List.replicate f.inner.range.size 0).modify (w (f.member γ (t.eval γ))) (· + 1)⟩ :=
    histogram_sole hcounted w
  rw [expandLastEntry_around hlen (hlegal _ (hcounted ▸ mem_singleton_self _)), ← hsole, hidx] at h
  exact Factor.lookup_of_entry h

end

/-! ### the expanded parfactor -/

/-- what the expanded parfactor is made of, with or without the formula for the others -/
structure Expanded (p q : Parfactor K) (f : CountingFormula) (t : Term) (before behind : List Prv)
    (others : List Prv) : Prop where
  prvs_eq : p.prvs = before ++ .count f :: behind
  expanded_eq : q.prvs = before ++ .atom (f.instantiate t) :: (others ++ behind)
  constraints_eq : q.constraints = p.constraints
  others_eq : (others = [.count (f.excluding t)] ∧ 0 < (f.excluding t).domainSize)
    ∨ (others = [] ∧ (f.excluding t).domainSize = 0)

namespace Expanded

variable {before behind others : List Prv}

theorem count_mem (h : Expanded p q f t before behind others) : Prv.count f ∈ p.prvs := by
  rw [h.prvs_eq]
  exact List.mem_append_right _ List.mem_cons_self

theorem mem_others (h : Expanded p q f t before behind others) {r : Prv} (hr : r ∈ others) :
    r = .count (f.excluding t) ∧ 0 < (f.excluding t).domainSize := by
  rcases h.others_eq with ⟨rfl, hpos⟩ | ⟨rfl, -⟩
  · exact ⟨List.mem_singleton.mp hr, hpos⟩
  · exact absurd hr List.not_mem_nil

theorem mem_cases (h : Expanded p q f t before behind others) {r : Prv} (hr : r ∈ q.prvs) :
    r ∈ p.prvs ∨ r = .atom (f.instantiate t)
      ∨ (r = .count (f.excluding t) ∧ 0 < (f.excluding t).domainSize) := by
  rw [h.expanded_eq, List.mem_append, List.mem_cons, List.mem_append] at hr
  rw [h.prvs_eq, List.mem_append, List.mem_cons]
  rcases hr with hr | rfl | hr | hr
  · exact .inl (.inl hr)
  · exact .inr (.inl rfl)
  · exact .inr (.inr (h.mem_others hr))
  · exact .inl (.inr (.inr hr))

theorem mem_or_eq (h : Expanded p q f t before behind others) {r : Prv} (hr : r ∈ p.prvs) :
    r ∈ q.prvs ∨ r = .count f := by
  rw [h.prvs_eq, List.mem_append, List.mem_cons] at hr
  rw [h.expanded_eq, List.mem_append, List.mem_cons, List.mem_append]
  rcases hr with hr | rfl | hr
  · exact .inl (.inl hr)
  · exact .inr rfl
  · exact .inl (.inr (.inr (.inr hr)))

theorem atom_mem (h : Expanded p q f t before behind others) :
    Prv.atom (f.instantiate t) ∈ q.prvs := by
  rw [h.expanded_eq]
  exact List.mem_append_right _ List.mem_cons_self

/-- the expansion keeps the groundings -/
theorem refits (h : Expanded p q f t before behind others) (hp : p.Sound)
    (hon : p.ExpandsOn f t) : Refits p q := by
  have hmem := h.count_mem
  have hf : f.Valid := hp.valid _ hmem
  have ht := hon.ne_bound
  have hfree : ∀ x ∈ f.freeVars, x ∈ p.logVars := fun x hx => mem_logVars.mpr (.inl ⟨_, hmem, hx⟩)
  refine ⟨h.constraints_eq, mem_logVars_iff h.constraints_eq (fun r hr x hx => ?_)
    (fun r hr x hx => ?_), fun γ hγ v hv => ?_⟩
  · rcases h.mem_cases hr with hr | rfl | ⟨rfl, -⟩
    · exact mem_logVars.mpr (.inl ⟨r, hr, hx⟩)
    · rcases CountingFormula.mem_variables_instantiate_of hx with hx | hx
      · exact hfree x (CountingFormula.mem_freeVars.mpr (.inl hx))
      · exact hon.logVar x hx
    · rcases (CountingFormula.mem_freeVars_excluding ht).mp hx with hx | hx
      · exact hfree x hx
      · exact hon.logVar x hx
  · rcases h.mem_or_eq hr with hr | rfl
    · exact mem_logVars.mpr (.inl ⟨r, hr, hx⟩)
    · rcases CountingFormula.mem_freeVars.mp hx with ⟨hinner, hne⟩ | hexcluded
      · exact mem_logVars.mpr (.inl ⟨_, h.atom_mem,
          CountingFormula.mem_variables_instantiate_mpr hinner hne⟩)
      · refine mem_logVars.mpr (.inr ?_)
        rw [h.constraints_eq]
        exact hon.mem_variables hexcluded
  · have hcounted := hon.mem_counted hf hγ
    have hsub := CountingFormula.image_excluding ht hcounted
    obtain ⟨r, hr, hv⟩ := mem_owned.mp hv
    rcases h.mem_cases hr with hr | rfl | ⟨rfl, -⟩
    · exact mem_owned.mpr ⟨r, hr, hv⟩
    · rw [Prv.owned_atom, groundVar_instantiate, mem_singleton] at hv
      refine mem_owned.mpr ⟨_, hmem, ?_⟩
      rw [Prv.owned_count, ← hsub, hv]
      exact mem_insert_self _ _
    · refine mem_owned.mpr ⟨_, hmem, ?_⟩
      rw [Prv.owned_count, ← hsub]
      exact mem_insert_of_mem hv

end Expanded

section
variable [ExactScalar K]

namespace Expanded

variable {before behind others : List Prv} {i : Nat}

theorem sound (h : Expanded p q f t before behind others) (hp : p.Sound) (hon : p.ExpandsOn f t)
    {entry : List Nat → Except Error K} (hq : rebuild q.constraints q.prvs entry = .ok q) :
    q.Sound := by
  have hrefits := h.refits hp hon
  have hf : f.Valid := hp.valid _ h.count_mem
  refine sound_rebuild hq (fun r hr => ?_) (fun c hc => ?_) (fun g hg => ?_) fun γ hγ r hr => ?_
  · rcases h.mem_cases hr with hr | rfl | ⟨rfl, -⟩
    · exact hp.valid r hr
    · trivial
    · exact hf.excluding hon.ne_bound
  · exact hp.satisfiable c (h.constraints_eq ▸ hc)
  · rcases h.mem_cases hg with hg | hg | ⟨hg, -⟩
    · exact hrefits.bound hp.proper hg
    · cases hg
    · cases hg
      exact fun hx => hp.bound f h.count_mem ((hrefits.logVars _).mp hx)
  · rw [hrefits.solutions_eq] at hγ
    rcases h.mem_cases hr with hr | rfl | ⟨rfl, hpos⟩
    · exact hp.exact γ hγ r hr
    · trivial
    · exact (hp.exact γ hγ _ h.count_mem).excluding hf hon.ne_bound hon.notMem
        (hon.mem_counted hf hγ) hpos

omit [ExactScalar K] in
/-- the digit of the formula stands between those of the others -/
theorem digits_old (h : Expanded p q f t before behind others) (γ : Valuation) (w : World) :
    p.digits γ w = before.map (·.read γ w) ++ (Prv.count f).read γ w :: behind.map (·.read γ w) := by
  rw [digits, h.prvs_eq, List.map_append, List.map_cons]

omit [ExactScalar K] in
/-- the value of the one taken out, and what the others read, stand in its place -/
theorem digits_new (h : Expanded p q f t before behind others) (γ : Valuation) (w : World) :
    q.digits γ w = before.map (·.read γ w) ++ w (f.member γ (t.eval γ))
      :: (others.map (·.read γ w) ++ behind.map (·.read γ w)) := by
  rw [digits, h.expanded_eq, List.map_append, List.map_cons, List.map_append]
  exact congrArg (fun v => _ ++ w v :: _) (groundVar_instantiate f t γ)

/-- **The entry with somebody left** is the old one for the histogram of the group. -/
theorem value_of_rest (h : Expanded p q f t before behind [.count (f.excluding t)])
    (hlen : before.length = i) (hp : p.Sound) (hon : p.ExpandsOn f t)
    (hq : rebuild q.constraints q.prvs (p.expandEntry f (f.excluding t) i) = .ok q)
    (hγ : γ ∈ p.solutions) (hw : w.Legal (p.owned γ)) : q.value γ w = p.value γ w := by
  have hrefits := h.refits hp hon
  have hf : f.Valid := hp.valid _ h.count_mem
  have hcounted := hon.mem_counted hf hγ
  have hexact : f.Exact γ := hp.exact γ hγ _ h.count_mem
  have hrest : (f.excluding t).Exact γ := hexact.excluding hf hon.ne_bound hon.notMem hcounted
    (h.mem_others (List.mem_singleton_self _)).2
  have hentry := value_rebuild hq (h.sound hp hon hq).readable (hrefits.solutions_eq.symm ▸ hγ)
    (hw.mono (hrefits.owned γ hγ))
  rw [h.digits_new] at hentry
  rw [value, value, h.digits_old]
  exact (lookup_of_expandEntry (by rw [List.length_map, hlen]) hon.ne_bound hcounted hexact hrest
    (hw.mono (owned_subset_owned h.count_mem γ)) hentry).symm

/-- **The entry with nobody left** is the old one for the value of the only individual. -/
theorem value_of_last (h : Expanded p q f t before behind [])
    (hlen : before.length = i) (hp : p.Sound) (hon : p.ExpandsOn f t)
    (hq : rebuild q.constraints q.prvs (p.expandLastEntry f i) = .ok q)
    (hγ : γ ∈ p.solutions) (hw : w.Legal (p.owned γ)) : q.value γ w = p.value γ w := by
  have hrefits := h.refits hp hon
  have hexact : f.Exact γ := hp.exact γ hγ _ h.count_mem
  have hzero : (f.excluding t).domainSize = 0 := by
    rcases h.others_eq with ⟨hsome, -⟩ | ⟨-, hzero⟩
    · cases hsome
    · exact hzero
  have hcounted : f.counted γ = {t.eval γ} := by
    have hone : (f.counted γ).card = 1 := by
      have hcard := hexact.card
      have hpos := hexact.pos
      have hrest := hon.domainSize
      omega
    obtain ⟨c, hc⟩ := card_eq_one.mp hone
    have hin := hon.mem_counted (hp.valid _ h.count_mem) hγ
    rw [hc, mem_singleton] at hin
    rw [hc, hin]
  have hentry := value_rebuild hq (h.sound hp hon hq).readable (hrefits.solutions_eq.symm ▸ hγ)
    (hw.mono (hrefits.owned γ hγ))
  rw [h.digits_new] at hentry
  rw [value, value, h.digits_old]
  exact (lookup_of_expandLastEntry (by rw [List.length_map, hlen]) hcounted hexact
    (hw.mono (owned_subset_owned h.count_mem γ)) hentry).symm

end Expanded

/-- **An expansion restates the parfactor.** -/
theorem restates_expand (hp : p.Sound) (h : p.expand f t = .ok q) :
    Restates (.standard p) [.standard q] := by
  obtain ⟨i, hi, hon, ⟨hpos, hq⟩ | ⟨hzero, hq⟩⟩ := expand_ok h
  · obtain ⟨hsplit, hlen⟩ := split_at hi
    obtain ⟨hcs, hprvs, -⟩ := rebuild_ok hq
    have hexpanded : Expanded p q f t (p.prvs.take i) (p.prvs.drop (i + 1))
        [.count (f.excluding t)] := ⟨hsplit, hprvs, hcs, .inl ⟨rfl, hpos⟩⟩
    rw [← hcs, ← hprvs] at hq
    exact (hexpanded.refits hp hon).restates (hexpanded.sound hp hon hq)
      fun γ hγ w hw => hexpanded.value_of_rest hlen hp hon hq hγ hw
  · obtain ⟨hsplit, hlen⟩ := split_at hi
    obtain ⟨hcs, hprvs, -⟩ := rebuild_ok hq
    have hexpanded : Expanded p q f t (p.prvs.take i) (p.prvs.drop (i + 1)) [] :=
      ⟨hsplit, hprvs, hcs, .inr ⟨rfl, hzero⟩⟩
    rw [← hcs, ← hprvs] at hq
    exact (hexpanded.refits hp hon).restates (hexpanded.sound hp hon hq)
      fun γ hγ w hw => hexpanded.value_of_last hlen hp hon hq hγ hw

end

end Parfactor

end LiftedElimination
