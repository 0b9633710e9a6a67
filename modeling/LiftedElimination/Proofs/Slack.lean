import LiftedElimination.Proofs.SumOut
import LiftedElimination.Proofs.Tabulated

/-!
# Lost variables

The normal form drops a formula over nobody.  What it drops besides are the variables that nothing
else mentions, and with them that every entry is multiplied once for each of their groundings.  So a
parfactor means a power of what is left of it.

* `idle`, `slack`       the variables that are lost, and the number of their groundings;
* `Filled`              an accurate parfactor with groundings, whose table fits;
* `Reduces`             what is left of a parfactor has its meaning as a power;
* `Filled.instance`     a variable with one individual becomes that individual;
* `GroundsTo`, `ground_reduces`   a run of grounding.
-/

namespace LiftedElimination

open Finset

variable {K : Type}

/-! ## formulas over nobody -/

namespace Prv

/-- a formula over nobody -/
def isVoid : Prv → Bool
  | atom _ => false
  | count f => f.domainSize == 0

variable {q : Prv} {γ : Valuation} {s : Substitution} {f : CountingFormula}

theorem isVoid_count : (count f).isVoid = true ↔ f.domainSize = 0 := beq_iff_eq

theorem isVoid_apply (hq : q.Valid) (hs : q.Avoids s) (haccurate : q.Accurate (s.pull γ)) :
    (q.apply s).isVoid = q.isVoid := by
  cases q with
  | atom a => rfl
  | count f => exact congrArg (· == 0) (CountingFormula.domainSize_apply hq hs haccurate)

/-- nobody is counted in one way, which comes first -/
theorem read_void (hf : f.Accurate γ) (hzero : f.domainSize = 0) (w : World) :
    (count f).read γ w = 0 := by
  have hempty : f.counted γ = ∅ := card_eq_zero.mp (hf.trans hzero)
  have hmem : f.histogram γ w ∈ f.histograms := CountingFormula.histogram_mem hf fun c hc => by
    rw [hempty] at hc
    exact absurd hc (notMem_empty c)
  have hlt := List.idxOf_lt_length_of_mem hmem
  rw [CountingFormula.histograms, hzero, Histogram.length_all, Histogram.spreads_nobody,
    ← hzero] at hlt
  exact Nat.lt_one_iff.mp hlt

end Prv

theorem Substitution.apply_single_const {x y z : LogVar} {c : Constant} :
    (single ⟨x, .const c⟩).apply (.var y) = .var z ↔ y = z ∧ z ≠ x := by
  by_cases hyx : y = x
  · rw [hyx, apply_single_self]
    exact ⟨nofun, fun ⟨hz, hne⟩ => absurd hz.symm hne⟩
  · rw [apply_single_ne hyx]
    exact ⟨fun h => ⟨Term.var.inj h, Term.var.inj h ▸ hyx⟩, fun h => congrArg _ h.1⟩

namespace ConstraintSet

variable {cs : ConstraintSet} {all vars : List LogVar} {δ : Valuation}

/-- variables that no constraint mentions have all individuals of their populations -/
theorem card_above_free (hsub : ∀ x ∈ vars, x ∈ all)
    (hfree : ∀ x ∈ all, x ∉ vars → x ∉ cs.variables) (hδ : δ ∈ cs.solutions vars) :
    (cs.above all vars δ).card
      = ∏ x ∈ all.toFinset.filter (· ∉ vars), x.population.toFinset.card := by
  have hsolves := solves_of_mem hδ
  have habove : cs.above all vars δ = overrides (all.toFinset.filter (· ∉ vars))
      (fun x => x.population.toFinset) δ := by
    ext γ
    rw [mem_above, mem_solutions, mem_overrides]
    simp only [mem_filter, List.mem_toFinset, Population.mem_toFinset]
    constructor
    · rintro ⟨⟨hγ, hout⟩, heq⟩
      refine ⟨fun x hx => hγ.mem x hx.1, fun x hx => ?_⟩
      by_cases hxv : x ∈ vars
      · exact heq x hxv
      · rw [hout x fun hxa => hx ⟨hxa, hxv⟩, (mem_solutions.mp hδ).2 x hxv]
    · rintro ⟨hpop, heq⟩
      have hsame : ∀ x ∈ vars, γ x = δ x := fun x hx => heq x fun h => h.2 hx
      refine ⟨⟨⟨fun x hx => ?_, fun c hc hc' => ?_⟩, fun x hx => ?_⟩, hsame⟩
      · by_cases hxv : x ∈ vars
        · rw [hsame x hxv]
          exact hsolves.mem x hxv
        · exact hpop x ⟨hx, hxv⟩
      · have hold : ∀ x ∈ c.variables, x ∈ vars := fun x hx => not_not.mp fun hxv =>
          hfree x (hc' x hx) hxv (mem_variables.mpr ⟨c, hc, hx⟩)
        exact (Constraint.holds_congr fun x hx => hsame x (hold x hx)).mpr
          (hsolves.holds c hc hold)
      · rw [heq x fun h => hx h.1]
        exact (mem_solutions.mp hδ).2 x fun h => hx (hsub x h)
  rw [habove, overrides, card_map, card_pi]

end ConstraintSet

namespace Parfactor

variable {p q r : Parfactor K} {x : LogVar} {c : Constant} {i : Nat} {f : CountingFormula}

/-! ## lost variables -/

/-- the variables that only formulas over nobody mention -/
def idle (p : Parfactor K) : List LogVar :=
  p.logVars.filter fun x =>
    x ∉ p.constraints.variables ∧ ∀ q ∈ p.prvs, x ∈ q.freeVars → q.isVoid = true

/-- the number of groundings of the idle variables -/
def slack (p : Parfactor K) : Nat := ∏ x ∈ p.idle.toFinset, x.population.toFinset.card

theorem mem_idle : x ∈ p.idle ↔ x ∈ p.logVars ∧ x ∉ p.constraints.variables
    ∧ ∀ q ∈ p.prvs, x ∈ q.freeVars → q.isVoid = true := by
  rw [idle, List.mem_filter, decide_eq_true_eq]

theorem slack_congr (h : ∀ x, x ∈ q.idle ↔ x ∈ p.idle) : q.slack = p.slack := by
  have hidle : q.idle.toFinset = p.idle.toFinset := by
    ext x
    rw [List.mem_toFinset, List.mem_toFinset, h]
  rw [slack, slack, hidle]

/-- no variable is lost where every formula counts somebody -/
theorem slack_eq_one (h : ∀ f, Prv.count f ∈ p.prvs → f.domainSize ≠ 0) : p.slack = 1 := by
  have hidle : p.idle = [] := List.eq_nil_iff_forall_not_mem.mpr fun x hx => by
    obtain ⟨hlog, hcs, hvoid⟩ := mem_idle.mp hx
    obtain ⟨q, hq, hxq⟩ := (mem_logVars.mp hlog).resolve_right hcs
    have hqv := hvoid q hq hxq
    cases q with
    | atom a => cases hqv
    | count f => exact h f hq (Prv.isVoid_count.mp hqv)
  rw [slack, hidle]
  exact prod_empty

/-! ## invariants -/

/-- an accurate parfactor with groundings, whose table has the right size and fits -/
structure Filled (p : Parfactor K) : Prop where
  proper : p.Proper
  accurate : p.Accurate
  nonempty : p.solutions.Nonempty
  tabulated : p.Tabulated
  fits : Index.Fits p.sizes
  ranges : ∀ f, Prv.count f ∈ p.prvs → f.inner.range.size ≤ maxWord

theorem Filled.readable (hp : p.Filled) : p.Readable where
  valid := hp.proper.valid
  accurate _ hγ _ hq := hp.accurate.prv hγ hq
  tabular _ hpos := tabular_of_le (hp.tabulated.size ▸ hp.tabulated.stored) hpos

/-- `p` means a power of `q`, by the groundings of the variables that `q` has lost -/
structure Reduces [ExactScalar K] (p q : Parfactor K) : Prop where
  scope : q.scope ⊆ p.scope
  power : ∃ k, p.slack = k * q.slack
    ∧ ∀ w : World, w.Legal p.scope → p.meaning w = q.meaning w ^ k

section
variable [ExactScalar K]

theorem Reduces.refl (p : Parfactor K) : Reduces p p :=
  ⟨subset_rfl, 1, (Nat.one_mul _).symm, fun _ _ => (pow_one _).symm⟩

theorem Reduces.trans (h : Reduces p q) (h' : Reduces q r) : Reduces p r := by
  obtain ⟨k, hk, hpq⟩ := h.power
  obtain ⟨l, hl, hqr⟩ := h'.power
  refine ⟨h'.scope.trans h.scope, k * l, by rw [hk, hl, Nat.mul_assoc], fun w hw => ?_⟩
  rw [hpq w hw, hqr w (hw.mono h.scope), ← pow_mul, Nat.mul_comm l k]

/-- the same entries under the same groundings, with the same variables to lose -/
theorem Refits.reduces (h : Refits p q)
    (hvoid : ∀ x, (∀ r ∈ q.prvs, x ∈ r.freeVars → r.isVoid = true)
      ↔ ∀ r ∈ p.prvs, x ∈ r.freeVars → r.isVoid = true)
    (hvalue : ∀ γ ∈ p.solutions, ∀ w : World, w.Legal (p.owned γ) → q.value γ w = p.value γ w) :
    Reduces p q := by
  have hslack : q.slack = p.slack := slack_congr fun x => by
    rw [mem_idle, mem_idle, h.logVars, h.constraints, hvoid]
  refine ⟨h.scope_subset, 1, by rw [hslack, Nat.one_mul], fun w hw => ?_⟩
  rw [pow_one, h.meaning_eq hvalue hw]

/-! ## a variable with one individual -/

omit [ExactScalar K] in
/-- the variables that are idle in an instance with groundings are idle before -/
theorem mem_idle_instance (hp : p.Proper) (haccurate : p.Accurate)
    (hb : Binds p.logVars ⟨x, .const c⟩) (h : p.apply (.single ⟨x, .const c⟩) = some q)
    (hne : q.solutions.Nonempty) {z : LogVar} : z ∈ q.idle ↔ z ∈ p.idle ∧ z ≠ x := by
  obtain ⟨δ, hδ⟩ := hne
  have hadmits := hp.admits hb
  have hlogVars := hp.mem_logVars_instance hb h z
  have haccurate := fun t ht => accurate_pull hp haccurate hadmits h hδ (r := t) ht
  obtain ⟨ds, hds, rfl⟩ := apply_eq_some h
  have hcs : z ∈ ds.variables ↔ z ∈ p.constraints.variables ∧ z ≠ x := by
    constructor
    · intro hz
      obtain ⟨y, hy, hyz⟩ := ConstraintSet.mem_variables_of_apply hds hz
      obtain ⟨rfl, hne⟩ := Substitution.apply_single_const.mp hyz
      exact ⟨hy, hne⟩
    · exact fun ⟨hz, hne⟩ => ConstraintSet.mem_variables_apply hds hz
        (Substitution.apply_single_const.mpr ⟨rfl, hne⟩)
  have hprvs : ∀ t ∈ p.prvs, (z ∈ (t.apply (.single ⟨x, .const c⟩)).freeVars ↔ z ∈ t.freeVars ∧ z ≠ x)
      ∧ (t.apply (.single ⟨x, .const c⟩)).isVoid = t.isVoid := by
    intro t ht
    refine ⟨(Prv.mem_freeVars_apply (hp.valid t ht) (hadmits.avoids ht)).trans ?_,
      Prv.isVoid_apply (hp.valid t ht) (hadmits.avoids ht) (haccurate t ht)⟩
    constructor
    · rintro ⟨y, hy, hyz⟩
      obtain ⟨rfl, hne⟩ := Substitution.apply_single_const.mp hyz
      exact ⟨hy, hne⟩
    · exact fun ⟨hz, hne⟩ => ⟨z, hz, Substitution.apply_single_const.mpr ⟨rfl, hne⟩⟩
  rw [mem_idle, mem_idle, hlogVars]
  show (_ ∧ z ≠ x) ∧ z ∉ ds.variables ∧ (∀ t' ∈ p.prvs.map _, _) ↔ _
  rw [hcs, List.forall_mem_map]
  constructor
  · rintro ⟨⟨hlog, hne⟩, hcs, hvoid⟩
    refine ⟨⟨hlog, fun hz => hcs ⟨hz, hne⟩, fun t ht hz => ?_⟩, hne⟩
    rw [← (hprvs t ht).2]
    exact hvoid t ht ((hprvs t ht).1.mpr ⟨hz, hne⟩)
  · rintro ⟨⟨hlog, hcs, hvoid⟩, hne⟩
    refine ⟨⟨hlog, hne⟩, fun hz => hcs hz.1, fun t ht hz => ?_⟩
    rw [(hprvs t ht).2]
    exact hvoid t ht ((hprvs t ht).1.mp hz).1

omit [ExactScalar K] in
/-- a variable with one individual left has one grounding -/
theorem slack_instance (hp : p.Proper) (haccurate : p.Accurate) (hx : x ∈ p.logVars)
    (hc : (x.domain p.constraints).individuals = [c])
    (h : p.apply (.single ⟨x, .const c⟩) = some q) (hne : q.solutions.Nonempty) :
    p.slack = q.slack := by
  have hidle : q.idle.toFinset = p.idle.toFinset.erase x := by
    ext z
    rw [List.mem_toFinset, mem_erase, List.mem_toFinset,
      mem_idle_instance hp haccurate (binds_of_individuals_eq hc hx) h hne, and_comm]
  rw [slack, slack, hidle]
  by_cases hmem : x ∈ p.idle.toFinset
  · have hfree := (mem_idle.mp (List.mem_toFinset.mp hmem)).2.1
    have hpopulation : x.population.toFinset = {c} := by
      ext d
      rw [Population.mem_toFinset, mem_singleton]
      have hdomain : d ∈ x.domain p.constraints ↔ d ∈ x.population := by
        refine LogVar.mem_domain.trans (and_iff_left fun k hk hex => hfree ?_)
        exact ConstraintSet.mem_variables.mpr ⟨k, hk, Constraint.mem_variables.mpr
          (.inl (Constraint.excluded?_eq_some.mp hex).1.symm)⟩
      rw [← hdomain]
      show d ∈ (x.domain p.constraints).individuals ↔ d = c
      rw [hc, List.mem_singleton]
    rw [← mul_prod_erase _ _ hmem, hpopulation, card_singleton, Nat.one_mul]
  · rw [erase_eq_of_notMem hmem]

/-- **A variable with one individual** becomes that individual. -/
theorem Filled.instance (hp : p.Filled) (hx : x ∈ p.logVars)
    (hc : (x.domain p.constraints).individuals = [c])
    (h : p.apply (.single ⟨x, .const c⟩) = some q) : q.Filled ∧ Reduces p q := by
  have hb := binds_of_individuals_eq hc hx
  have hadmits := hp.proper.admits hb
  have hall : p.solutions.filter (fun γ => γ x = (Term.const c).eval γ) = p.solutions :=
    filter_of_individuals_eq hc hx
  have hmeaning := fun w => meaning_apply hp.proper hp.accurate hb h w
  have hproper := hp.proper.apply hadmits h
  have haccurate := hp.accurate.apply hp.proper hadmits h
  have hscope := scope_apply hp.proper hadmits h
  have hne : q.solutions.Nonempty := by
    obtain ⟨γ, hγ⟩ := hp.nonempty
    have hws := hp.proper.mem_logVars_instance hb h
    obtain ⟨ds, hds, hq⟩ := apply_eq_some h
    have hcs : q.constraints = ds := by rw [hq]
    have hmem := (hb.bijOn_restrict hws hds (confined p _ _)).mapsTo (mem_coe.mpr (hall.symm ▸ hγ))
    exact ⟨_, by rw [solutions, hcs]; exact hmem⟩
  have hslack := slack_instance hp.proper hp.accurate hx hc h hne
  have hsizes : q.sizes = p.sizes := by
    obtain ⟨δ, hδ⟩ := hne
    exact sizes_apply hp.proper hp.accurate hadmits h hδ
  refine ⟨⟨hproper, haccurate, hne, ?_, hsizes ▸ hp.fits, fun f' hf' => ?_⟩,
    hscope, 1, by rw [hslack, Nat.one_mul], fun w _ => ?_⟩
  · obtain ⟨ds, -, rfl⟩ := apply_eq_some h
    exact ⟨hp.tabulated.size.trans (congrArg _ hsizes.symm), hp.tabulated.stored⟩
  · obtain ⟨ds, -, rfl⟩ := apply_eq_some h
    obtain ⟨t, ht, htf⟩ := List.mem_map.mp hf'
    cases t with
    | atom a => cases htf
    | count g =>
      cases htf
      exact hp.ranges g ht
  · rw [pow_one, hmeaning]
    exact prod_congr hall.symm fun _ _ => rfl

/-- what grounding leaves of `p`: nothing only if there are no groundings, and else as much as before -/
structure GroundsTo (p : Parfactor K) (o : Option (Parfactor K)) : Prop where
  nothing : o = none → p.solutions = ∅
  proper : ∀ q ∈ o, q.Proper
  satisfiable : ∀ q ∈ o, ∀ c ∈ q.constraints, c.isContradiction = false
  nonempty : ∀ q ∈ o, q.solutions.Nonempty → p.solutions.Nonempty
  reduces : ∀ q ∈ o, p.solutions.Nonempty → q.Filled ∧ Reduces p q

namespace GroundsTo

variable {o : Option (Parfactor K)}

theorem refl (hp : p.Proper) (hsat : ∀ c ∈ p.constraints, c.isContradiction = false)
    (hfilled : p.solutions.Nonempty → p.Filled) : GroundsTo p (some p) where
  nothing := nofun
  proper _ hq := Option.some.inj hq ▸ hp
  satisfiable _ hq := Option.some.inj hq ▸ hsat
  nonempty _ hq := Option.some.inj hq ▸ id
  reduces _ hq hne := Option.some.inj hq ▸ ⟨hfilled hne, .refl p⟩

theorem solutions_eq_empty (h : GroundsTo p (some q)) (hq : q.solutions = ∅) : p.solutions = ∅ :=
  not_nonempty_iff_eq_empty.mp fun hne =>
    (h.reduces q rfl hne).1.nonempty.ne_empty hq

theorem unsatisfiable (h : GroundsTo p (some q))
    (hunsat : q.constraints.satisfiable q.logVars = false) : GroundsTo p none where
  nothing _ := h.solutions_eq_empty (LiftedElimination.solutions_eq_empty q.nodup_logVars hunsat)
  proper := nofun
  satisfiable := nofun
  nonempty := nofun
  reduces := nofun

theorem round (h : GroundsTo p (some q)) (hx : x ∈ q.logVars)
    (hc : (x.domain q.constraints).individuals = [c]) :
    GroundsTo p (q.apply (.single ⟨x, .const c⟩)) := by
  have hproper := h.proper q rfl
  have hadmits := hproper.admits (binds_of_individuals_eq hc hx)
  refine ⟨fun hnone => h.solutions_eq_empty ?_, fun r hr => hproper.apply hadmits hr,
    fun r hr k hk => ?_,
    fun r hr ⟨δ, hδ⟩ => h.nonempty q rfl ⟨_, restrict_pull_mem hproper hadmits hr hδ⟩,
    fun r hr hne => ?_⟩
  · exact (filter_of_individuals_eq hc hx).symm.trans (solutions_eq_empty_of_apply hnone)
  · obtain ⟨ds, hds, rfl⟩ := apply_eq_some hr
    exact ConstraintSet.not_isContradiction_of_apply hds hk
  · obtain ⟨hfilled, hreduces⟩ := h.reduces q rfl hne
    obtain ⟨hfilled', hreduces'⟩ := hfilled.instance hx hc hr
    exact ⟨hfilled', hreduces.trans hreduces'⟩

end GroundsTo

/-- **A run of grounding** leaves nothing exactly if there are no groundings. -/
theorem ground_reduces {o : Option (Parfactor K)} (hp : p.Proper)
    (hsat : ∀ c ∈ p.constraints, c.isContradiction = false)
    (hfilled : p.solutions.Nonempty → p.Filled)
    (h : groundSingletons logVars constraints apply p = .ok o) :
    (o = none ↔ p.solutions = ∅) ∧ ∀ q, o = some q → q.Filled ∧ Reduces p q := by
  obtain ⟨hgrounds, hsatisfiable⟩ := groundSingletons_ok (I := GroundsTo p)
    (fun q hq hunsat => hq.unsatisfiable hunsat) (fun q x c hq hx hc => hq.round hx hc)
    (.refl hp hsat hfilled) h
  have hne : ∀ q, o = some q → p.solutions.Nonempty := fun q hq => by
    refine hgrounds.nonempty q hq (ConstraintSet.solutions_nonempty.mpr ?_)
    exact ConstraintSet.exists_solves q.nodup_logVars (fun c hc _ => hgrounds.satisfiable q hq c hc)
      (hsatisfiable q hq)
  refine ⟨⟨hgrounds.nothing, fun hnone => ?_⟩, fun q hq => hgrounds.reduces q hq (hne q hq)⟩
  cases o with
  | none => rfl
  | some q => exact absurd hnone (hne q rfl).ne_empty

end

end Parfactor

end LiftedElimination
