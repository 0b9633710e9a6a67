import LiftedElimination.Proofs.Countable
import LiftedElimination.Proofs.Guarded
import LiftedElimination.Proofs.Slack

/-!
# Normal forms where formulas count nobody

A formula over nobody has one histogram, so that an entry stays what it is when the formula is
dropped; a formula over one individual reads as its atom does, and repeated random variables read
alike.  Every round leaves an accurate parfactor whose table fits, so the normal form is found.

* `Drops`               one parfactor without a formula over nobody of the other one;
* `Filled.simplifyRound`, `Filled.mergeRound`   the rounds;
* `Filled.normalize`    whole runs;
* `normalize_meaning`   what normal forms are, and what they mean.
-/

namespace LiftedElimination

open Finset

variable {K : Type}

namespace Parfactor

variable {p q : Parfactor K} {x : LogVar} {i : Nat} {f : CountingFormula}

/-! ## a formula over nobody -/

/-- `q` is `p` without the formula `f` at place `i`, which counts nobody -/
structure Drops (p : Parfactor K) (i : Nat) (f : CountingFormula) (q : Parfactor K) : Prop where
  filled : p.Filled
  place : p.prvs[i]? = some (.count f)
  nobody : f.domainSize = 0
  dropped : p.dropPrv i 0 = .ok q

namespace Drops

variable {γ δ : Valuation} {w : World}

theorem constraints_eq (h : Drops p i f q) : q.constraints = p.constraints :=
  (rebuild_ok h.dropped).1

theorem prvs_eq (h : Drops p i f q) : q.prvs = p.prvs.eraseIdx i := (rebuild_ok h.dropped).2.1

theorem mem_prvs (h : Drops p i f q) {t : Prv} (ht : t ∈ q.prvs) : t ∈ p.prvs :=
  List.mem_of_mem_eraseIdx (h.prvs_eq ▸ ht)

theorem mem_prvs_or_eq (h : Drops p i f q) {t : Prv} (ht : t ∈ p.prvs) : t ∈ q.prvs ∨ t = .count f := by
  obtain ⟨hlt, hget⟩ := List.getElem?_eq_some_iff.mp h.place
  have hperm := List.getElem_cons_eraseIdx_perm hlt
  rw [hget, ← h.prvs_eq] at hperm
  exact (List.mem_cons.mp (hperm.mem_iff.mpr ht)).symm

theorem mem_logVars_iff (h : Drops p i f q) : x ∈ q.logVars
    ↔ (∃ t ∈ q.prvs, x ∈ t.freeVars) ∨ x ∈ p.constraints.variables := by
  rw [mem_logVars, h.constraints_eq]

theorem mem_logVars_old (h : Drops p i f q) (hx : x ∈ q.logVars) : x ∈ p.logVars := by
  rcases h.mem_logVars_iff.mp hx with ⟨t, ht, hxt⟩ | hx
  · exact mem_logVars.mpr (.inl ⟨t, h.mem_prvs ht, hxt⟩)
  · exact mem_logVars.mpr (.inr hx)

/-- a variable that is lost was idle -/
theorem mem_idle_of_lost (h : Drops p i f q) (hx : x ∈ p.logVars) (hlost : x ∉ q.logVars) :
    x ∈ p.idle := by
  refine mem_idle.mpr ⟨hx, fun hcs => hlost (h.mem_logVars_iff.mpr (.inr hcs)), fun t ht hxt => ?_⟩
  rcases h.mem_prvs_or_eq ht with ht | rfl
  · exact absurd (h.mem_logVars_iff.mpr (.inl ⟨t, ht, hxt⟩)) hlost
  · exact Prv.isVoid_count.mpr h.nobody

theorem mem_idle_iff (h : Drops p i f q) : x ∈ q.idle ↔ x ∈ p.idle ∧ x ∈ q.logVars := by
  rw [mem_idle, mem_idle, h.constraints_eq]
  constructor
  · rintro ⟨hx, hcs, hvoid⟩
    refine ⟨⟨h.mem_logVars_old hx, hcs, fun t ht hxt => ?_⟩, hx⟩
    rcases h.mem_prvs_or_eq ht with ht | rfl
    · exact hvoid t ht hxt
    · exact Prv.isVoid_count.mpr h.nobody
  · exact fun ⟨⟨_, hcs, hvoid⟩, hx⟩ => ⟨hx, hcs, fun t ht hxt => hvoid t (h.mem_prvs ht) hxt⟩

/-- the variables that are lost take their share of the slack -/
theorem slack_eq (h : Drops p i f q) : p.slack
    = (∏ x ∈ p.logVars.toFinset.filter (· ∉ q.logVars), x.population.toFinset.card) * q.slack := by
  have hlost : p.idle.toFinset.filter (· ∉ q.logVars) = p.logVars.toFinset.filter (· ∉ q.logVars) := by
    ext x
    rw [mem_filter, mem_filter, List.mem_toFinset, List.mem_toFinset]
    exact and_congr_left fun hx => ⟨fun hidle => (mem_idle.mp hidle).1, fun hlog =>
      h.mem_idle_of_lost hlog hx⟩
  have hkept : p.idle.toFinset.filter (· ∈ q.logVars) = q.idle.toFinset := by
    ext x
    rw [mem_filter, List.mem_toFinset, List.mem_toFinset, h.mem_idle_iff]
  rw [slack, slack, ← hlost, ← hkept, Nat.mul_comm]
  exact (prod_filter_mul_prod_filter_not _ _ _).symm

theorem solutions_eq (h : Drops p i f q) : q.solutions = p.constraints.solutions q.logVars := by
  rw [solutions, h.constraints_eq]

theorem card_above (h : Drops p i f q) (hδ : δ ∈ q.solutions) :
    (p.constraints.above p.logVars q.logVars δ).card
      = ∏ x ∈ p.logVars.toFinset.filter (· ∉ q.logVars), x.population.toFinset.card :=
  ConstraintSet.card_above_free (fun _ hx => h.mem_logVars_old hx)
    (fun _ _ hout hcs => hout (h.mem_logVars_iff.mpr (.inr hcs))) (h.solutions_eq ▸ hδ)

/-- the variables that are lost have individuals, so that groundings are parts of groundings -/
theorem exists_above (h : Drops p i f q) (hδ : δ ∈ q.solutions) :
    ∃ γ ∈ p.solutions, ∀ x ∈ q.logVars, γ x = δ x := by
  obtain ⟨ε, hε⟩ := h.filled.nonempty
  have hpos : 0 < (p.constraints.above p.logVars q.logVars δ).card := by
    rw [h.card_above hδ]
    refine prod_pos fun x hx => card_pos.mpr ⟨ε x, Population.mem_toFinset.mpr ?_⟩
    exact (ConstraintSet.solves_of_mem hε).mem x (List.mem_toFinset.mp (mem_filter.mp hx).1)
  obtain ⟨γ, hγ⟩ := card_pos.mp hpos
  exact ⟨γ, ConstraintSet.mem_above.mp hγ⟩

theorem filled_new (h : Drops p i f q) : q.Filled := by
  have hp := h.filled
  refine ⟨⟨fun t ht => hp.proper.valid t (h.mem_prvs ht), fun g hg hx =>
    hp.proper.bound g (h.mem_prvs hg) (h.mem_logVars_old hx)⟩, fun δ hδ g hg => ?_, ?_,
    tabulated_of_rebuild h.dropped, ?_, fun g hg => hp.ranges g (h.mem_prvs hg)⟩
  · obtain ⟨γ, hγ, heq⟩ := h.exists_above hδ
    exact Prv.accurate_congr (hp.proper.valid _ (h.mem_prvs hg))
      (fun x hx => heq x (mem_logVars.mpr (.inl ⟨_, hg, hx⟩))) (hp.accurate.prv hγ (h.mem_prvs hg))
  · obtain ⟨γ, hγ⟩ := hp.nonempty
    rw [h.solutions_eq]
    exact ⟨_, ConstraintSet.restrict_mem_solutions
      ((ConstraintSet.solves_of_mem hγ).mono fun x hx => h.mem_logVars_old hx)⟩
  · rw [sizes, h.prvs_eq, ← List.eraseIdx_map]
    exact hp.fits.eraseIdx (getElem?_sizes h.place) (CountingFormula.rangeSize_pos_of_nobody h.nobody)

theorem scope_subset (h : Drops p i f q) : q.scope ⊆ p.scope := by
  intro v hv
  obtain ⟨δ, hδ, hv⟩ := mem_scope.mp hv
  obtain ⟨γ, hγ, heq⟩ := h.exists_above hδ
  obtain ⟨t, ht, hvt⟩ := mem_owned.mp hv
  have hvalid := h.filled.proper.valid t (h.mem_prvs ht)
  rw [← Prv.owned_congr hvalid fun x hx => heq x (mem_logVars.mpr (.inl ⟨t, ht, hx⟩))] at hvt
  exact mem_scope.mpr ⟨γ, hγ, mem_owned.mpr ⟨t, h.mem_prvs ht, hvt⟩⟩

section
variable [ExactScalar K]

/-- the entry of the only histogram is kept -/
theorem value_eq (h : Drops p i f q) (hδ : δ ∈ q.solutions) (hγ : γ ∈ p.solutions)
    (heq : ∀ x ∈ q.logVars, γ x = δ x) (hw : w.Legal q.scope) : p.value γ w = q.value δ w := by
  have hq := h.filled_new
  have hentry := value_rebuild h.dropped hq.readable hδ (hw.mono (owned_subset_scope hδ))
  have hzero := Prv.read_void (h.filled.accurate γ hγ f (List.mem_of_getElem? h.place)) h.nobody w
  have hread : (p.digits γ w)[i]? = some 0 := by
    rw [digits, List.getElem?_map, h.place, ← hzero]
    rfl
  have hdigits : q.digits δ w = (p.digits γ w).eraseIdx i := by
    rw [← digits_congr hq.proper.valid fun x hx => heq x (mem_addVars.mpr (.inl hx)), digits,
      h.prvs_eq, ← List.eraseIdx_map]
    rfl
  rw [hdigits, insertIdx_eraseIdx hread] at hentry
  exact Factor.lookup_of_entry hentry

theorem reduces (h : Drops p i f q) : Reduces p q := by
  refine ⟨h.scope_subset, _, h.slack_eq, fun w hw => ?_⟩
  rw [meaning, meaning, solutions, ConstraintSet.prod_above fun x hx => h.mem_logVars_old hx,
    ← h.solutions_eq, ← prod_pow]
  refine prod_congr rfl fun δ hδ => ?_
  rw [← h.card_above hδ]
  refine prod_eq_pow_card fun γ hγ => ?_
  obtain ⟨hγ, heq⟩ := ConstraintSet.mem_above.mp hγ
  exact h.value_eq hδ hγ heq (hw.mono h.scope_subset)

end

end Drops

/-! ## a formula over one individual, and repeated random variables -/

namespace Filled

section
variable [ExactScalar K] {a : Atom}

theorem replaceSole (hp : p.Filled) (hi : p.prvs[i]? = some (.count f)) (hone : f.domainSize = 1)
    (ha : soleAtom? f = some a) : (p.replacePrv i (.atom a)).Filled
      ∧ Reduces p (p.replacePrv i (.atom a)) := by
  have hmem : Prv.count f ∈ p.prvs := List.mem_of_getElem? hi
  have hstands := standsFor_sole (p := p) (hp.proper.valid _ hmem) hone ha
  have hrefits := refits_replacePrv hi hstands
  have hold : ∀ g, Prv.count g ∈ (p.replacePrv i (.atom a)).prvs → Prv.count g ∈ p.prvs :=
    fun g hg => (mem_prvs_replacePrv hg).resolve_right nofun
  have hsizes : (p.replacePrv i (.atom a)).sizes = p.sizes := by
    obtain ⟨-, c, -, rfl⟩ := soleAtom?_eq_some ha
    show (p.prvs.set i _).map _ = _
    have hrange : (Prv.atom (f.instantiate (.const c))).rangeSize = f.rangeSize :=
      ((CountingFormula.rangeSize_of_one hone).trans (Nat.min_eq_left (hp.ranges f hmem))).symm
    rw [List.map_set, hrange]
    exact set_eq_self (getElem?_sizes hi)
  refine ⟨⟨⟨fun t ht => ?_, fun g hg => hrefits.bound hp.proper (hold g hg)⟩, fun γ hγ g hg =>
    hp.accurate γ (hrefits.solutions_eq ▸ hγ) g (hold g hg), hrefits.solutions_eq ▸ hp.nonempty,
    ⟨hp.tabulated.size.trans (congrArg _ hsizes.symm), hp.tabulated.stored⟩, hsizes ▸ hp.fits,
    fun g hg => hp.ranges g (hold g hg)⟩, hrefits.reduces (fun x => ?_) fun γ hγ w hw =>
      value_replacePrv hp.readable hi hstands hγ hw⟩
  · rcases mem_prvs_replacePrv ht with ht | rfl
    · exact hp.proper.valid t ht
    · trivial
  · -- neither the formula nor its atom is void
    constructor
    · intro hvoid t ht hx
      rcases mem_set_or_eq (a := .atom a) hi ht with ht | rfl
      · exact hvoid t ht hx
      · cases hvoid _ (mem_replacePrv_self hi) ((hstands.freeVars x).mpr hx)
    · intro hvoid t ht hx
      rcases mem_prvs_replacePrv ht with ht | rfl
      · exact hvoid t ht hx
      · have hzero := Prv.isVoid_count.mp (hvoid _ hmem ((hstands.freeVars x).mp hx))
        omega

theorem simplifyRound (hp : p.Filled) (h : p.simplifyRound = .ok (some q)) :
    q.Filled ∧ Reduces p q := by
  obtain ⟨i, f, hi, ⟨hzero, hdrop⟩ | ⟨hone, a, ha, rfl⟩⟩ := simplifyRound_ok h
  · have hdrops : Drops p i f q := ⟨hp, hi, hzero, hdrop⟩
    exact ⟨hdrops.filled_new, hdrops.reduces⟩
  · exact hp.replaceSole hi hone ha

theorem mergeRound (hp : p.Filled) (h : p.mergeRound = .ok (some q)) : q.Filled ∧ Reduces p q := by
  have hmem := mem_prvs_mergeRound h
  have hrefits := refits_mergeRound h
  have hq : q.Filled :=
    ⟨⟨fun t ht => hp.proper.valid t ((hmem t).mp ht), fun g hg =>
      hrefits.bound hp.proper ((hmem _).mp hg)⟩, fun γ hγ g hg =>
      hp.accurate γ (hrefits.solutions_eq ▸ hγ) g ((hmem _).mp hg), hrefits.solutions_eq ▸ hp.nonempty,
      tabulated_mergeRound h, fits_mergeRound hp.fits h, fun g hg => hp.ranges g ((hmem _).mp hg)⟩
  refine ⟨hq, hrefits.reduces (fun x => by simp only [hmem]) fun γ hγ w hw => ?_⟩
  exact value_mergeRound h hq.readable (hrefits.solutions_eq.symm ▸ hγ) (hw.mono (hrefits.owned γ hγ))

end

/-! ## whole runs -/

theorem errorsIn_simplifyRound {P : Error → Prop} (hp : p.Filled) : ErrorsIn P p.simplifyRound := by
  unfold Parfactor.simplifyRound
  split
  · exact .ok _
  · rename_i i hi
    obtain ⟨f, hf, ⟨hzero, -⟩ | ⟨-, b, -, hb⟩⟩ := trivialFormula?_eq_some hi
    · have hpos := CountingFormula.rangeSize_pos_of_nobody hzero
      refine (errorsIn_rebuild_of_fits ?_ fun _ _ hd =>
        hp.tabulated.errorsIn_droppedEntry hf hpos hd).map
      rw [← List.eraseIdx_map]
      exact hp.fits.eraseIdx (getElem?_sizes hf) hpos
    · cases hb
  · exact .ok _

end Filled

section
variable [ExactScalar K]

/-- the formulas and the repeated random variables, once there is nothing left to ground -/
theorem Filled.normalize (hp : p.Filled) : ∃ s t, p.simplifyCounting = .ok s
    ∧ s.mergeRepeated = .ok t ∧ t.Filled ∧ Reduces p t := by
  let I : Parfactor K → Prop := fun q => q.Filled ∧ Reduces p q
  have hsimplify : ∀ a b, I a → a.simplifyRound = .ok (some b) → I b := fun a b ha hab =>
    (ha.1.simplifyRound hab).imp_right ha.2.trans
  have hmerge : ∀ a b, I a → a.mergeRound = .ok (some b) → I b := fun a b ha hab =>
    (ha.1.mergeRound hab).imp_right ha.2.trans
  obtain ⟨s, hs⟩ := (errorsIn_settle (I := I) (P := fun _ => False)
    (m := fun q => (q.prvs.filterMap Prv.count?).length)
    (fun a b ha hab => ⟨hsimplify a b ha hab, length_formulas_simplifyRound hab⟩)
    (fun a ha => ha.1.errorsIn_simplifyRound) ⟨hp, .refl p⟩
    (List.length_filterMap_le _ _)).exists_ok
  have hs' := (settle_ok (p := I) hsimplify ⟨hp, .refl p⟩ hs).1
  obtain ⟨t, ht⟩ := (errorsIn_settle (I := I) (P := fun _ => False) (m := fun q => q.prvs.length)
    (fun a b ha hab => ⟨hmerge a b ha hab, length_prvs_mergeRound hab⟩)
    (fun a ha => ha.1.tabulated.errorsIn_mergeRound ha.1.fits) hs' le_rfl).exists_ok
  exact ⟨s, t, hs, ht, (settle_ok (p := I) hmerge hs' ht).1⟩

/-! ## normal forms -/

omit [ExactScalar K] in
theorem size_domain_ne_one {cs : ConstraintSet} {vars : List LogVar} (h : Grounded cs vars)
    (hx : x ∈ vars) : (x.domain cs).size ≠ 1 := fun hone => by
  obtain ⟨c, hc⟩ := List.length_eq_one_iff.mp hone
  have hnone := List.findSome?_eq_none_iff.mp h.several x hx
  rw [hc] at hnone
  cases hnone

omit [ExactScalar K] in
/-- a formula over one individual is left only if it excludes a variable -/
theorem Stable.excludedVars_ne_nil (h : p.Stable) (hf : Prv.count f ∈ p.prvs)
    (hone : f.domainSize = 1) : f.excludedVars ≠ [] := fun hnil => by
  have hsole := (trivialFormula?_eq_none_iff.mp h.simple f hf).2 hone
  rw [CountingFormula.domainSize, hnil] at hone
  obtain ⟨c, hc⟩ := List.length_eq_one_iff.mp hone
  rw [soleAtom?, hnil, Population.get?, hc] at hsole
  cases hsole

omit [ExactScalar K] in
theorem Accepted.filled [Scalar K] (hp : p.Accepted) (haccurate : p.Accurate)
    (hranges : ∀ f, Prv.count f ∈ p.prvs → f.inner.range.size ≤ maxWord)
    (hne : p.solutions.Nonempty) : p.Filled :=
  ⟨hp.proper, haccurate, hne, hp.tabulated, hp.fits, hranges⟩

/-- **Normal forms**: let the builder have accepted a parfactor whose formulas count what their domain
sizes say, maybe nobody, over ranges of no more values than 64 bits can count.  It has a normal form,
which is nothing exactly if no grounding satisfies the constraints.  Otherwise no variable has a single
individual left, no random variable is listed twice, every formula counts somebody, and one that
counts a single individual excludes a variable.  The parfactor means a power of its normal form, by
the number of groundings of the variables that only formulas over nobody mention; so without such
variables both mean the same in every legal world. -/
theorem normalize_meaning (hp : p.Accepted) (haccurate : p.Accurate)
    (hranges : ∀ f, Prv.count f ∈ p.prvs → f.inner.range.size ≤ maxWord) :
    ∃ o, p.normalize = .ok o ∧ (o = none ↔ p.solutions = ∅)
      ∧ ∀ q, o = some q →
        (∀ x ∈ q.logVars, (x.domain q.constraints).size ≠ 1) ∧ q.prvs.Nodup
        ∧ (∀ f, Prv.count f ∈ q.prvs → f.domainSize ≠ 0 ∧ (f.domainSize = 1 → f.excludedVars ≠ []))
        ∧ q.Accurate ∧ q.scope ⊆ p.scope
        ∧ (∀ w : World, w.Legal p.scope → p.meaning w = q.meaning w ^ p.slack)
        ∧ (p.idle = [] → ∀ w : World, w.Legal p.scope → q.meaning w = p.meaning w) := by
  obtain ⟨g, hg⟩ := (errorsIn_ground (P := fun _ => False) hp.proper).exists_ok
  obtain ⟨hnone, hsome⟩ := ground_reduces hp.proper hp.satisfiable
    (hp.filled haccurate hranges) hg
  cases g with
  | none =>
    have hnormal : p.normalize = .ok none := by
      unfold Parfactor.normalize
      rw [hg]
      rfl
    exact ⟨none, hnormal, hnone, nofun⟩
  | some r =>
    obtain ⟨hr, hpr⟩ := hsome r rfl
    obtain ⟨s, q, hs, ht, hq, hrq⟩ := hr.normalize
    have hnormal : p.normalize = .ok (some q) := by
      unfold Parfactor.normalize
      rw [hg]
      show (r.simplifyCounting >>= fun p => p.mergeRepeated >>= fun p => .ok (some p)) = _
      rw [hs]
      show (s.mergeRepeated >>= fun p => .ok (some p)) = _
      rw [ht]
      rfl
    have hstable := stable_of_normalize hnormal
    have hpq := hpr.trans hrq
    have hpower : ∀ w : World, w.Legal p.scope → p.meaning w = q.meaning w ^ p.slack := by
      obtain ⟨k, hk, hmeaning⟩ := hpq.power
      rw [slack_eq_one fun f hf => (hstable.domainSize_pos hf).ne', Nat.mul_one] at hk
      exact hk ▸ hmeaning
    refine ⟨some q, hnormal, ⟨nofun, fun hempty => nomatch hnone.mpr hempty⟩, fun q' hq' => ?_⟩
    cases hq'
    refine ⟨fun x => size_domain_ne_one hstable.grounded, hstable.nodup, fun f hf =>
      ⟨(hstable.domainSize_pos hf).ne', hstable.excludedVars_ne_nil hf⟩, hq.accurate, hpq.scope,
      hpower, fun hidle w hw => ?_⟩
    rw [hpower w hw, slack, hidle]
    exact (pow_one _).symm

end

end Parfactor

/-! ## a lockdown -/

open scoped ExactScalar

namespace Epidemic

/-- how many people apart from everybody can infect somebody -/
def outsiders : CountingFormula :=
  ⟨person, infects (.var person) (.var other),
    .ofList [.ordered person (.const ⟨"x1"⟩), .ordered person (.const ⟨"x2"⟩),
      .ordered person (.const ⟨"x3"⟩)]⟩

/-- `x3` visits, and nobody infects anybody -/
def lockdown : Parfactor Nat :=
  ⟨.ofList [.ordered visitor (.const ⟨"x1"⟩), .ordered visitor (.const ⟨"x2"⟩)],
    [.count outsiders, .atom (sick (.var visitor)), .atom epidemic, .atom (sick (.var visitor))],
    ⟨#[4, 1, 2, 3, 1, 5, 6, 2]⟩⟩

theorem eq_outsiders {f : CountingFormula} (hf : Prv.count f ∈ lockdown.prvs) : f = outsiders := by
  simpa [lockdown] using hf

theorem accepted_lockdown : lockdown.Accepted := by
  refine ⟨rfl, fun f hf => ?_, by decide⟩
  rw [eq_outsiders hf]
  rfl

theorem accurate_lockdown : lockdown.Accurate := by
  intro γ hγ f hf
  have hvalid := accepted_lockdown.proper.valid _ hf
  refine CountingFormula.accurate_of_empty hvalid (eq_empty_of_forall_notMem fun c hc => ?_)
  obtain rfl := eq_outsiders hf
  have hmem : c ∈ outsiders.individuals.individuals :=
    ((CountingFormula.Valid.mem_counted_iff hvalid).mp hc).1
  have hnobody : outsiders.individuals.individuals = [] := by decide
  rw [hnobody] at hmem
  exact List.not_mem_nil hmem

end Epidemic

/-- the three people that could have been infected are lost with the formula -/
theorem Epidemic.normalize_meaning_lockdown : ∃ q, lockdown.normalize = .ok (some q)
    ∧ q.prvs.Nodup ∧ (∀ x ∈ q.logVars, (x.domain q.constraints).size ≠ 1)
    ∧ ∀ w : World, w.Legal lockdown.scope → lockdown.meaning w = q.meaning w ^ 3 := by
  have hranges : ∀ f, Prv.count f ∈ lockdown.prvs → f.inner.range.size ≤ maxWord := fun f hf => by
    rw [eq_outsiders hf]
    decide
  have hslack : lockdown.slack = 3 := by decide
  have hsatisfiable : lockdown.constraints.satisfiable lockdown.logVars = true := by decide
  have hne : lockdown.solutions.Nonempty := ConstraintSet.solutions_nonempty.mpr
    (ConstraintSet.exists_solves lockdown.nodup_logVars
      (fun c hc _ => accepted_lockdown.satisfiable c hc) hsatisfiable)
  obtain ⟨o, ho, hnone, hsome⟩ := Parfactor.normalize_meaning accepted_lockdown accurate_lockdown
    hranges
  cases o with
  | none => exact absurd (hnone.mp rfl) hne.ne_empty
  | some q =>
    obtain ⟨hseveral, hnodup, -, -, -, hpower, -⟩ := hsome q rfl
    exact ⟨q, ho, hnodup, hseveral, hslack ▸ hpower⟩

end LiftedElimination
