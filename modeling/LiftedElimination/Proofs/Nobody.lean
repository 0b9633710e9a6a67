import LiftedElimination.Proofs.Counting
import LiftedElimination.Proofs.TableSize

/-!
# Counting nobody

A variable may be counted that has no individuals, or only as many as its neighbours take.  Then the
parfactor has no groundings and means one.  The counted parfactor has lost the variable and may have
groundings, but nobody is counted, so all its entries are empty products.  Normal forms keep a table
of ones, and drop the formula.

* `Parfactor.ExactLocally`   formulas are exact under the groundings of their own variables;
* `Parfactor.Ones`           a table of ones, over formulas that are exact or count nobody;
* `Ones.apply`, `Neutral.simplifyRound`, `Neutral.mergeRound`   normal forms keep it;
* `meaning_normalize_count`  what is left when nobody is counted means one.
-/

namespace LiftedElimination

open Finset

variable {K : Type}

/-! ## entries of tables that are built -/

namespace Factor

theorem mem_of_entry {t : Factor K} {sizes digits : List Nat} {y : K}
    (h : t.entry sizes digits = .ok y) : y ∈ t.values := by
  unfold entry at h
  split at h
  · cases h
  · split at h
    · cases h
    · rename_i z hz
      cases h
      exact Array.mem_of_getElem? hz

theorem forall_fill {P : K → Prop} {sizes digits : List Nat} {f : List Nat → Except Error K}
    {n : Nat} {acc out : Array K} (hacc : ∀ y ∈ acc, P y) (hf : ∀ digits y, f digits = .ok y → P y)
    (h : fill sizes f n digits acc = .ok out) : ∀ y ∈ out, P y := by
  induction n generalizing digits acc with
  | zero =>
    cases h
    exact hacc
  | succ n ih =>
    unfold fill at h
    split at h
    · cases h
    · rename_i x hx
      refine ih (fun y hy => ?_) h
      rcases Array.mem_push.mp hy with hy | rfl
      · exact hacc y hy
      · exact hf _ _ hx

/-- what holds of every entry that is computed holds of the table -/
theorem forall_ofFn {P : K → Prop} {sizes : List Nat} {f : List Nat → Except Error K}
    {t : Factor K} (hf : ∀ digits y, f digits = .ok y → P y) (h : ofFn sizes f = .ok t) :
    ∀ y ∈ t.values, P y := by
  unfold ofFn at h
  split at h
  · cases h
  · split at h
    · cases h
    · rename_i values hfill
      cases h
      exact forall_fill (fun y hy => by simp at hy) hf hfill

end Factor

/-! ## formulas that are exact or count nobody -/

/-- the groundings under a substitution are groundings before it, pulled back -/
theorem Valuation.Solves.pull {γ : Valuation} {vars ws : List LogVar} {cs ds : ConstraintSet}
    {s : Substitution} (hγ : γ.Solves ds ws)
    (hs : ∀ x ∈ vars, (∃ z, s.apply (.var x) = .var z ∧ z.population = x.population)
      ∨ ∃ c, s.apply (.var x) = .const c ∧ c ∈ x.population)
    (h : cs.apply s = some ds)
    (hws : ∀ x ∈ vars, ∀ z, s.apply (.var x) = .var z → z ∈ ws) : (s.pull γ).Solves cs vars := by
  refine ⟨fun x hx => ?_, fun c hc hv => ?_⟩
  · rcases hs x hx with ⟨z, hz, hpop⟩ | ⟨c, hc, hcx⟩
    · rw [Substitution.pull, hz, ← hpop]
      exact hγ.mem z (hws x hx z hz)
    · rw [Substitution.pull, hc]
      exact hcx
  · cases hca : c.apply s with
    | none =>
      refine (Constraint.holds_of_apply_none hca γ).mpr (Bool.eq_false_iff.mpr fun hv => ?_)
      have hnone := ConstraintSet.apply_eq_none.mpr ⟨c, hc, hv⟩
      rw [h] at hnone
      cases hnone
    | some d =>
      refine (Constraint.holds_of_apply hca γ).mp
        (hγ.holds d ((ConstraintSet.mem_of_apply h).mpr ⟨c, hc, hca⟩) fun z hz => ?_)
      obtain ⟨x, hx, hxz⟩ := (Constraint.mem_variables_of_apply hca).mp hz
      exact hws x (hv x hx) z hxz

namespace Parfactor

/-- every formula is exact under every grounding of its own variables, of which there may be some
where the parfactor has none -/
def ExactLocally (p : Parfactor K) : Prop :=
  ∀ f, Prv.count f ∈ p.prvs → ∀ γ : Valuation, γ.Solves p.constraints f.freeVars → f.Exact γ

variable {p q r : Parfactor K} {s : Substitution} {w : World} {x : LogVar}

section
variable [One K]

/-- a table of ones, over formulas that are exact or count nobody under every grounding of their own
variables -/
structure Ones (p : Parfactor K) : Prop where
  proper : p.Proper
  satisfiable : ∀ c ∈ p.constraints, c.isContradiction = false
  fits : ∀ f, Prv.count f ∈ p.prvs → ∀ γ : Valuation, γ.Solves p.constraints f.freeVars →
    f.Exact γ ∨ f.counted γ = ∅
  ones : ∀ y ∈ p.factor.values, y = 1
  stored : p.factor.size ≤ Index.maxEntries

/-- a table of ones that has the right size -/
structure Neutral (p : Parfactor K) : Prop extends p.Ones where
  size : p.factor.size = p.sizes.prod

/-- the formulas of an instance are pulled back -/
theorem Ones.fits_pull (hp : p.Ones) (hs : p.Admits s) (h : p.apply s = some q)
    {f : CountingFormula} (hf : Prv.count f ∈ p.prvs) {γ : Valuation}
    (hγ : γ.Solves q.constraints (f.apply s).freeVars) :
    f.Exact (s.pull γ) ∨ f.counted (s.pull γ) = ∅ := by
  obtain ⟨ds, hds, rfl⟩ := apply_eq_some h
  refine hp.fits f hf _ (hγ.pull (fun x hx => hs.image x (mem_logVars.mpr (.inl ⟨_, hf, hx⟩))) hds
    fun x hx z hz => ?_)
  exact (Prv.mem_freeVars_apply (hp.proper.valid _ hf) (hs.avoids hf)).mpr ⟨x, hx, hz⟩

theorem Ones.apply (hp : p.Ones) (hs : p.Admits s) (h : p.apply s = some q) : q.Ones := by
  have hfits := fun f hf γ hγ => hp.fits_pull hs h (f := f) hf (γ := γ) hγ
  have hproper := hp.proper.apply hs h
  obtain ⟨ds, hds, rfl⟩ := apply_eq_some h
  refine ⟨hproper, fun c hc => ConstraintSet.not_isContradiction_of_apply hds hc,
    fun f hf γ hγ => ?_, hp.ones, hp.stored⟩
  obtain ⟨t, ht, htf⟩ := List.mem_map.mp hf
  cases t with
  | atom a => cases htf
  | count g =>
    cases htf
    have hvalid : g.Valid := hp.proper.valid _ ht
    have havoids : g.Avoids s := hs.avoids ht
    refine (hfits g ht γ hγ).imp (fun hexact => hexact.apply hvalid havoids) fun hempty => ?_
    rwa [CountingFormula.counted_apply hvalid havoids]

/-- where an instance has groundings, the ranges are as large as before -/
theorem Ones.sizes_apply (hp : p.Ones) (hs : p.Admits s) (h : p.apply s = some q)
    (hne : q.solutions.Nonempty) : q.sizes = p.sizes := by
  obtain ⟨γ, hγ⟩ := hne
  have hfits := fun f hf => hp.fits_pull hs h (f := f) hf (γ := γ)
  have hsolves : ∀ t ∈ q.prvs, γ.Solves q.constraints t.freeVars := fun t ht =>
    (ConstraintSet.solves_of_mem hγ).mono fun x hx => mem_logVars.mpr (.inl ⟨t, ht, hx⟩)
  obtain ⟨ds, hds, rfl⟩ := apply_eq_some h
  unfold sizes
  rw [List.map_map]
  refine List.map_congr_left fun t ht => ?_
  cases t with
  | atom a => rfl
  | count f =>
    have hvalid : f.Valid := hp.proper.valid _ ht
    have havoids : f.Avoids s := hs.avoids ht
    refine CountingFormula.rangeSize_apply hvalid havoids (γ := γ) ?_
    exact (hfits f ht (hsolves (.count (f.apply s)) (List.mem_map_of_mem ht))).elim
      CountingFormula.Exact.card (CountingFormula.accurate_of_empty hvalid)

/-- fewer formulas under the same constraints, over a table of entries of the old one -/
theorem Neutral.of_rebuild (hp : p.Neutral) {prvs : List Prv} {entry : List Nat → Except Error K}
    (h : rebuild p.constraints prvs entry = .ok q) (hproper : q.Proper)
    (hprvs : ∀ t ∈ prvs, t ∈ p.prvs)
    (hentry : ∀ digits y, entry digits = .ok y → y ∈ p.factor.values) : q.Neutral := by
  obtain ⟨hcs, hq, hfactor⟩ := rebuild_ok h
  obtain ⟨hsize, hle⟩ := Factor.size_ofFn hfactor
  refine ⟨⟨hproper, fun c hc => hp.satisfiable c (hcs ▸ hc), fun f hf γ hγ => ?_, ?_,
    hsize.trans_le hle⟩, ?_⟩
  · exact hp.fits f (hprvs _ (hq ▸ hf)) γ (hcs ▸ hγ)
  · exact Factor.forall_ofFn (fun digits y hy => hp.ones y (hentry digits y hy)) hfactor
  · rw [hsize, sizes, hq]

theorem Neutral.simplifyRound (hp : p.Neutral) (h : p.simplifyRound = .ok (some q)) :
    q.Neutral := by
  have hproper := (bulk_simplifyRound hp.proper h).1
  obtain ⟨i, f, hi, ⟨-, hdrop⟩ | ⟨hone, a, hsole, rfl⟩⟩ := simplifyRound_ok h
  · exact hp.of_rebuild hdrop hproper (fun t => List.mem_of_mem_eraseIdx)
      fun digits y hy => Factor.mem_of_entry hy
  · obtain ⟨-, c, -, rfl⟩ := soleAtom?_eq_some hsole
    refine ⟨⟨hproper, hp.satisfiable, fun g hg => ?_, hp.ones, hp.stored⟩, ?_⟩
    · rcases List.mem_or_eq_of_mem_set hg with hg | hg
      · exact hp.fits g hg
      · cases hg
    · exact hp.size.trans (prod_sizes_replacePrv (a := f.instantiate (.const c))
        (hp.size ▸ hp.stored) hi hone rfl).symm

theorem Neutral.mergeRound (hp : p.Neutral) (h : p.mergeRound = .ok (some q)) : q.Neutral := by
  have hproper := (bulk_mergeRound hp.proper h).1
  obtain ⟨i, j, t, -, -, -, hmerge⟩ := mergeRound_ok h
  exact hp.of_rebuild hmerge hproper (fun t => List.mem_of_mem_eraseIdx)
    fun digits y hy => Factor.mem_of_entry hy

/-- a run of grounding that leaves something leaves a table of the right size, as there are
groundings -/
theorem Neutral.ground (hp : p.Neutral)
    (h : groundSingletons logVars constraints Parfactor.apply p = .ok (some q)) : q.Neutral := by
  let I : Option (Parfactor K) → Prop := fun o => ∀ q, o = some q →
    q.Ones ∧ (q.solutions.Nonempty → q.factor.size = q.sizes.prod)
  have hround : ∀ (a : Parfactor K) x c, I (some a) → x ∈ a.logVars →
      (x.domain a.constraints).individuals = [c] → I (a.apply (.single ⟨x, .const c⟩)) := by
    intro a x c ha hx hc b hb
    obtain ⟨hones, hsize⟩ := ha a rfl
    have hadmits := hones.proper.admits (binds_of_individuals_eq hc hx)
    refine ⟨hones.apply hadmits hb, fun hne => ?_⟩
    rw [hones.sizes_apply hadmits hb hne]
    obtain ⟨γ, hγ⟩ := hne
    have hold := hsize ⟨_, restrict_pull_mem hones.proper hadmits hb hγ⟩
    obtain ⟨ds, -, rfl⟩ := apply_eq_some hb
    exact hold
  obtain ⟨hq, hsat⟩ := groundSingletons_ok (I := I) (fun _ _ _ => nofun) hround
    (fun q hq => Option.some.inj hq ▸ ⟨hp.toOnes, fun _ => hp.size⟩) h
  obtain ⟨hones, hsize⟩ := hq q rfl
  refine ⟨hones, hsize (ConstraintSet.solutions_nonempty.mpr ?_)⟩
  exact ConstraintSet.exists_solves q.nodup_logVars (fun c hc _ => hones.satisfiable c hc)
    (hsat q rfl)

theorem Neutral.normalize (hp : p.Neutral) (h : p.normalize = .ok (some q)) :
    q.Neutral ∧ ∀ f, Prv.count f ∈ q.prvs → f.domainSize ≠ 0 := by
  have hstable := stable_of_normalize h
  obtain ⟨g, hg, ⟨-, hr⟩ | ⟨a, b, c, rfl, hb, hc, hqc⟩⟩ := normalize_ok h
  · cases hr
  cases hqc
  have hsimple := (settle_ok (p := Neutral) (fun _ _ ha hab => ha.simplifyRound hab)
    (hp.ground hg) hb).1
  exact ⟨(settle_ok (p := Neutral) (fun _ _ ha hab => ha.mergeRound hab) hsimple hc).1,
    fun f hf => (trivialFormula?_eq_none_iff.mp hstable.simple f hf).1⟩

end

section
variable [ExactScalar K]

/-- **A table of ones** over formulas that count somebody means one. -/
theorem Neutral.meaning_eq (hp : p.Neutral)
    (hpos : ∀ f, Prv.count f ∈ p.prvs → f.domainSize ≠ 0) (hw : w.Legal p.scope) :
    p.Sound ∧ p.meaning w = 1 := by
  have hsound : p.Sound := by
    refine ⟨hp.proper.valid, hp.satisfiable, hp.proper.bound, fun γ hγ q hq => ?_,
      fun _ hprod => tabular_of_le (hp.size ▸ hp.stored) hprod⟩
    cases q with
    | atom a => trivial
    | count f =>
      have hsolves := (ConstraintSet.solves_of_mem hγ).mono fun x hx =>
        mem_logVars.mpr (.inl ⟨.count f, hq, hx⟩)
      exact (hp.fits f hq γ hsolves).resolve_right fun hempty =>
        hpos f hq (CountingFormula.domainSize_eq_zero (hp.proper.valid _ hq) hempty)
  refine ⟨hsound, prod_eq_one fun γ hγ => ?_⟩
  have hlt := Index.indexOf_lt (below_read hsound.readable hγ (hw.mono (owned_subset_scope hγ)))
  rw [← hp.size] at hlt
  have hget : p.factor.values[Index.indexOf p.sizes (p.digits γ w)]?
      = some p.factor.values[Index.indexOf p.sizes (p.digits γ w)] := Array.getElem?_eq_getElem hlt
  rw [value, Factor.lookup, hget]
  exact hp.ones _ (Array.getElem_mem hlt)

/-! ## counting nobody -/

/-- an entry counted for nobody is an empty product -/
theorem countedEntry_nobody {t : Factor K} {sizes digits : List Nat} {i n v : Nat} {acc y : K}
    (h : countedEntry t sizes i digits (List.replicate n 0) v acc = .ok y) : y = acc := by
  induction n generalizing v acc with
  | zero =>
    cases h
    rfl
  | succ n ih =>
    rw [List.replicate_succ, countedEntry] at h
    split at h
    · cases h
    · rw [ih h, ExactScalar.pow_eq, pow_zero, mul_one]

theorem countEntry_nobody {f : CountingFormula} {i : Nat} {digits : List Nat} {y : K}
    (hf : f.domainSize = 0) (h : p.countEntry f i digits = .ok y) : y = 1 := by
  unfold countEntry at h
  split at h
  · cases h
  · rename_i hist hhist
    have hmem : hist ∈ f.histograms := List.mem_toArray.mp (Array.mem_of_getElem? hhist)
    rw [CountingFormula.histograms, hf, Histogram.all, Histogram.spreads_nobody] at hmem
    rw [List.mem_singleton.mp hmem] at h
    exact countedEntry_nobody h

omit [ExactScalar K] in
/-- where nobody is counted there are no groundings -/
theorem TurnsInto.solutions_eq_empty {f : CountingFormula} {i : Nat} (h : TurnsInto p f i r)
    (hcountable : p.isCountable f.bound = true) (hf : f.domainSize = 0) : p.solutions = ∅ := by
  refine eq_empty_of_forall_notMem fun ε hε => ?_
  have hlogVars := h.logVars
  have hmem := CountingFormula.apply_bound_mem_counted h.own ((hlogVars _).mpr (.inl rfl))
    (fun k hk _ z hz => mem_logVars.mpr (.inr (ConstraintSet.mem_variables.mpr ⟨k, hk, hz⟩))) hε
    default
  have hγ := ConstraintSet.solves_of_mem
    (CountingFormula.forget_mem_solutions h.bound_notMem hlogVars hε)
  have hcard := h.card_counted hcountable (hγ.mono fun y hy =>
    mem_logVars.mpr (.inl ⟨_, h.mem_prvs.mpr (.inl rfl), hy⟩))
  rw [hf, card_eq_zero] at hcard
  rw [hcard] at hmem
  exact absurd hmem (notMem_empty _)

omit [ExactScalar K] in
/-- the constraints that stay are all that there is for variables other than the counted one -/
theorem TurnsInto.solves {f : CountingFormula} {i : Nat} (h : TurnsInto p f i r) {γ : Valuation}
    {vars : List LogVar} (hvars : f.bound ∉ vars) (hγ : γ.Solves r.constraints vars) :
    γ.Solves p.constraints vars := by
  refine ⟨hγ.mem, fun c hc hv => hγ.holds c ?_ hv⟩
  rw [h.constraints_eq]
  exact ConstraintSet.mem_notOnVariable.mpr ⟨hc, fun hx => hvars (hv _ hx)⟩

/-- **Counting nobody**: the parfactor has no groundings, and what is left of the counted one means
one, if its formulas are exact under the groundings of their own variables. -/
theorem meaning_normalize_count {f : CountingFormula} {i : Nat} (hp : p.Proper)
    (hsat : ∀ c ∈ p.constraints, c.isContradiction = false) (hlocal : p.ExactLocally)
    (h : TurnsInto p f i r) (hcountable : p.isCountable f.bound = true) (hf : f.domainSize = 0)
    (hr : rebuild r.constraints r.prvs (p.countEntry f i) = .ok r) (hq : r.normalize = .ok (some q))
    (hw : w.Legal q.scope) : q.meaning w = 1 := by
  obtain ⟨-, -, hfactor⟩ := rebuild_ok hr
  obtain ⟨hsize, hle⟩ := Factor.size_ofFn hfactor
  have hneutral : r.Neutral := by
    refine ⟨⟨h.proper hp, fun c hc => ?_, fun g hg γ hγ => ?_, ?_, hsize.trans_le hle⟩, hsize⟩
    · rw [h.constraints_eq] at hc
      exact hsat c (ConstraintSet.mem_notOnVariable.mp hc).1
    · rcases h.mem_prvs.mp hg with hgf | hg'
      · cases hgf
        have hcard := h.card_counted hcountable (h.solves h.valid.bound_notMem_freeVars hγ)
        rw [hf, card_eq_zero] at hcard
        exact .inr hcard
      · exact .inl (hlocal g (h.mem_prvs_old.mpr (.inr hg')) γ (h.solves (h.sole _ hg') hγ))
    · exact Factor.forall_ofFn (fun digits y => countEntry_nobody hf) hfactor
  obtain ⟨hneutral, hpos⟩ := hneutral.normalize hq
  exact (hneutral.meaning_eq hpos hw).2

end

end Parfactor

end LiftedElimination
