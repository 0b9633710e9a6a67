import LiftedElimination.Proofs.Nobody

/-!
# Countable variables

A countable variable has the same number of individuals for every grounding of the other variables.
Turning it into the bound variable of a counting formula succeeds exactly if the counted table fits,
and keeps the meaning, whether or not somebody is counted.

* `Parfactor.AccurateLocally`   formulas count what their domain size says, maybe nobody, also where
                           the parfactor has no groundings;
* `Parfactor.countedSizes`   the sizes of the counted table;
* `TurnsInto.readable`       every legal world selects an entry of the counted table;
* `exists_count_iff`         when counting succeeds;
* `count_meaning`            what counting a countable variable comes to.
-/

namespace LiftedElimination

open Finset

variable {K : Type}

namespace Parfactor

/-! ## formulas that may count nobody -/

/-- every formula is accurate under every grounding of its own variables, of which there may be some
where the parfactor has none -/
def AccurateLocally (p : Parfactor K) : Prop :=
  ∀ f, Prv.count f ∈ p.prvs → ∀ γ : Valuation, γ.Solves p.constraints f.freeVars → f.Accurate γ

theorem AccurateLocally.prv {p : Parfactor K} (h : p.AccurateLocally) {γ : Valuation} {q : Prv}
    (hq : q ∈ p.prvs) (hγ : γ.Solves p.constraints q.freeVars) : q.Accurate γ := by
  cases q with
  | atom a => trivial
  | count f => exact h f hq γ hγ

/-! ## the counted table -/

/-- the sizes of the table with histograms in the place of the values of the holder of `x` -/
def countedSizes (p : Parfactor K) (x : LogVar) : List Nat :=
  match p.holder? x with
  | some (i, .atom a) => p.sizes.set i (Prv.rangeSize (.count ⟨x, a, p.constraints.onVariable x⟩))
  | _ => p.sizes

variable {p r : Parfactor K} {f : CountingFormula} {i : Nat} {x : LogVar} {w : World}

/-- the formulas that stay are as accurate as before: with somebody counted a grounding is one of the
parfactor, and with nobody counted the parfactor has no groundings to speak of -/
theorem TurnsInto.accurate_of_mem (h : TurnsInto p f i r) (hp : p.Proper) (haccurate : p.Accurate)
    (hlocal : p.solutions = ∅ → p.AccurateLocally) (hcountable : p.isCountable f.bound = true)
    {γ : Valuation} (hγ : γ ∈ r.solutions) {q : Prv} (hq : q ∈ r.prvs) : q.Accurate γ := by
  rcases h.mem_prvs.mp hq with rfl | hothers
  · exact h.accurate hcountable hγ
  have hold : q ∈ p.prvs := h.mem_prvs_old.mpr (.inr hothers)
  rcases Nat.eq_zero_or_pos f.domainSize with hzero | hpos
  · have hsolves : γ.Solves r.constraints q.freeVars := (ConstraintSet.solves_of_mem hγ).mono
      fun y hy => mem_logVars.mpr (.inl ⟨q, hq, hy⟩)
    exact (hlocal (h.solutions_eq_empty hcountable hzero)).prv hold
      (h.solves (h.sole q hothers) hsolves)
  · obtain ⟨c, hc⟩ := h.exists_update (h.exact hcountable hpos hγ) hγ
    exact Prv.accurate_congr (hp.valid q hold) (h.update_eq hothers γ c) (haccurate.prv hc hold)

theorem TurnsInto.readable (h : TurnsInto p f i r) (hp : p.Proper) (haccurate : p.Accurate)
    (hlocal : p.solutions = ∅ → p.AccurateLocally) (hcountable : p.isCountable f.bound = true)
    {entry : List Nat → Except Error K} (hr : rebuild r.constraints r.prvs entry = .ok r) :
    r.Readable :=
  readable_rebuild hr (h.proper hp).valid fun _ hγ _ hq =>
    h.accurate_of_mem hp haccurate hlocal hcountable hγ hq

section
variable [Scalar K]

/-- **When counting succeeds**: exactly if the counted table fits. -/
theorem exists_count_iff (hp : p.Tabulated) (hsat : ∀ c ∈ p.constraints, c.isContradiction = false)
    (hcountable : p.isCountable x = true) :
    (∃ r, p.count x = .ok r) ↔ Index.Fits (p.countedSizes x) := by
  obtain ⟨i, a, hholder⟩ := exists_holder hcountable
  have hi := (holder?_eq_some hholder).1
  rw [count_eq_rebuild hsat hcountable hholder, exists_rebuild_iff fun hle digits hd =>
    hp.errorsIn_countEntry hi rfl rfl hle hd, countedSizes, hholder, List.map_set]
  rfl

/-- the counted parfactor has the counted table -/
theorem sizes_count (hsat : ∀ c ∈ p.constraints, c.isContradiction = false)
    (h : p.count x = .ok r) : r.sizes = p.countedSizes x := by
  obtain ⟨hcountable, -⟩ := count_ok h
  obtain ⟨i, a, hholder⟩ := exists_holder hcountable
  rw [count_eq_rebuild hsat hcountable hholder] at h
  rw [countedSizes, hholder, sizes, (rebuild_ok h).2.1, List.map_set]
  rfl

end

section
variable [ExactScalar K]

/-- **Counting keeps the meaning**: let the builder have accepted a parfactor whose formulas count as
many individuals as their domain size says.  Counting a countable variable succeeds exactly if the
counted table fits.  Then the new formula counts its domain size under every grounding of the
remaining variables, and the counted parfactor means the same in every world that gives legal values
to what both are about.  Entries are exact here, and so are their powers; those of floats are powers
by the counts for fewer than `2 ^ 31` individuals, see `FloatEntry.power_of_lt`. -/
theorem count_meaning (hp : p.Accepted) (haccurate : p.Accurate)
    (hlocal : p.solutions = ∅ → p.AccurateLocally) (hcountable : p.isCountable x = true) :
    ((∃ r, p.count x = .ok r) ↔ Index.Fits (p.countedSizes x))
      ∧ ∀ r, p.count x = .ok r → ∃ f i, f.bound = x ∧ TurnsInto p f i r
        ∧ (∀ γ ∈ r.solutions, f.Accurate γ)
        ∧ ∀ w : World, w.Legal (p.scope ∪ r.scope) → r.meaning w = p.meaning w := by
  refine ⟨exists_count_iff hp.tabulated hp.satisfiable hcountable, fun r hr => ?_⟩
  obtain ⟨-, f, i, rfl, hturns, hrebuild⟩ := turnsInto_of_count hr
  have hread := hturns.readable hp.proper haccurate hlocal hcountable hrebuild
  refine ⟨f, i, rfl, hturns, fun γ hγ => hturns.accurate hcountable hγ, fun w hw => ?_⟩
  exact hturns.meaning_eq hp.proper.valid hread hrebuild (hw.mono subset_union_right)

end

end Parfactor

/-! ## visitors -/

open scoped ExactScalar

namespace Epidemic

def visitor : LogVar := ⟨"V", people⟩

/-- somebody else is sick, by the number of sources somebody has -/
def visits : Parfactor Nat :=
  ⟨.ofList [.ordered visitor (.var other)],
    [.atom (sick (.var visitor)), .count sources, .atom epidemic],
    ⟨#[5, 1, 2, 3, 1, 4, 2, 1, 1, 6, 3, 2]⟩⟩

end Epidemic

/-- the sick visitors of somebody are counted -/
theorem Epidemic.count_meaning_visits : ∃ r, visits.count visitor = .ok r
    ∧ ∃ f i, f.bound = visitor ∧ Parfactor.TurnsInto visits f i r
      ∧ (∀ γ ∈ r.solutions, f.Accurate γ)
      ∧ ∀ w : World, w.Legal (visits.scope ∪ r.scope) → r.meaning w = visits.meaning w := by
  have hformula : ∀ f, Prv.count f ∈ visits.prvs → f = sources := fun f hf => by
    simpa [visits] using hf
  have haccepted : visits.Accepted := ⟨rfl, fun f hf => hformula f hf ▸ rfl, by decide⟩
  have hlocal : visits.AccurateLocally := by
    intro f hf γ hγ
    obtain rfl := hformula f hf
    exact (exact_sources (hγ.mem other (by decide))).card
  have haccurate : visits.Accurate := fun γ hγ f hf => hlocal f hf γ
    ((ConstraintSet.solves_of_mem hγ).mono fun y hy =>
      Parfactor.mem_logVars.mpr (.inl ⟨_, hf, hy⟩))
  obtain ⟨hsucceeds, hmeaning⟩ := Parfactor.count_meaning (x := visitor) haccepted haccurate
    (fun _ => hlocal) (by decide)
  have hfits : Index.Fits (visits.countedSizes visitor) := ⟨18, by decide⟩
  obtain ⟨r, hr⟩ := hsucceeds.mpr hfits
  exact ⟨r, hr, hmeaning r hr⟩

end LiftedElimination
