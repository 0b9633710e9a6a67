import LiftedElimination.Proofs.Tabulated

/-!
# Expandable terms

An individual may be taken out of a counting formula if the formula counts it under every grounding.
The expansion succeeds exactly if the expanded table fits, keeps the meaning, and leaves a formula
that is accurate again.  Every histogram that it looks up is one of the formula.

* `Parfactor.expandedPrvs`   the random variables of the expanded parfactor;
* `Histogram.exists_addOne_mem`   a histogram with one individual more is one of the larger group;
* `CountingFormula.Finds`    the lookup of such a histogram does not miss;
* `exists_expand_iff`        when an expansion succeeds;
* `expand_meaning`           what an expansion comes to.
-/

namespace LiftedElimination

open Finset

variable {K : Type}

/-! ## one individual more -/

theorem sum_modify_succ {l : List Nat} {v : Nat} (h : v < l.length) :
    (l.modify v (· + 1)).sum = l.sum + 1 := by
  induction l generalizing v with
  | nil => cases h
  | cons a l ih =>
    cases v with
    | zero =>
      rw [List.modify_zero_cons, List.sum_cons, List.sum_cons]
      omega
    | succ v =>
      rw [List.modify_succ_cons, List.sum_cons, List.sum_cons, ih (Nat.lt_of_succ_lt_succ h)]
      rfl

/-- one individual more of any value gives a histogram of the larger group -/
theorem Histogram.exists_addOne_mem {b n v : Nat} {h : Histogram} (hh : h ∈ all b n) (hv : v < b) :
    ∃ g ∈ all b (n + 1), Parfactor.addOne h.counts v = .ok g := by
  obtain ⟨hlength, htotal⟩ := mem_all.mp hh
  have htotal : h.counts.sum = n := htotal
  refine ⟨_, mem_all.mpr ⟨?_, ?_⟩, Parfactor.addOne_ok (hlength.symm ▸ hv)⟩
  · exact (List.length_modify _ _ _).trans hlength
  · show (h.counts.modify v (· + 1)).sum = n + 1
    rw [sum_modify_succ (hlength.symm ▸ hv), htotal]

namespace CountingFormula

/-- whatever value one more individual has, the histogram `counts` with it is one of the formula -/
def Finds (f : CountingFormula) (counts : List Nat) : Prop :=
  ∀ v < f.inner.range.size, ∃ g k, Parfactor.addOne counts v = .ok g
    ∧ f.histograms.idxOf? g = some k

theorem finds_of_mem {f : CountingFormula} {n : Nat} (hn : f.domainSize = n + 1) {h : Histogram}
    (hh : h ∈ Histogram.all f.inner.range.size n) : f.Finds h.counts := by
  intro v hv
  obtain ⟨g, hg, hadd⟩ := Histogram.exists_addOne_mem hh hv
  rw [← hn] at hg
  cases hk : f.histograms.idxOf? g with
  | none => exact absurd hg (List.idxOf?_eq_none_iff.mp hk)
  | some k => exact ⟨g, k, hadd, hk⟩

/-- the formula for the others, if anybody is left -/
def remainder (f : CountingFormula) (t : Term) : List Prv :=
  if 0 < (f.excluding t).domainSize then [.count (f.excluding t)] else []

end CountingFormula

namespace Parfactor

variable {p q : Parfactor K} {f : CountingFormula} {t : Term} {γ : Valuation} {w : World}

/-! ## the expanded table -/

/-- the random variables with the atom for `t` and the formula for the others in the place of `f` -/
def expandedPrvs (p : Parfactor K) (f : CountingFormula) (t : Term) : List Prv :=
  p.prvs.take (p.prvs.idxOf (.count f))
    ++ .atom (f.instantiate t) :: (f.remainder t ++ p.prvs.drop (p.prvs.idxOf (.count f) + 1))

/-- **When an expansion succeeds**: exactly if the expanded table fits. -/
theorem exists_expand_iff (hp : p.Tabulated) (h : p.isExpandable f t = true) :
    (∃ q, p.expand f t = .ok q) ↔ Index.Fits ((p.expandedPrvs f t).map Prv.rangeSize) := by
  have hposition := position?_of_isExpandable h
  have hi := getElem?_of_position? hposition
  rw [expand_eq_rebuild h hposition, expandedPrvs, CountingFormula.remainder]
  by_cases hpos : 0 < (f.excluding t).domainSize
  · rw [if_pos hpos, if_pos hpos]
    exact exists_rebuild_iff fun hle _ hd =>
      hp.errorsIn_expandEntry (a := f.instantiate t) hi rfl rfl hle hd
  · rw [if_neg hpos, if_neg hpos]
    exact exists_rebuild_iff fun _ _ hd =>
      hp.errorsIn_expandLastEntry (a := f.instantiate t) hi rfl hd

theorem parts_expand (h : p.isExpandable f t = true) (hq : p.expand f t = .ok q) :
    q.constraints = p.constraints ∧ q.prvs = p.expandedPrvs f t := by
  rw [expand_eq_rebuild h (position?_of_isExpandable h)] at hq
  rw [expandedPrvs, CountingFormula.remainder]
  by_cases hpos : 0 < (f.excluding t).domainSize
  · rw [if_pos hpos] at hq ⊢
    exact ⟨(rebuild_ok hq).1, (rebuild_ok hq).2.1⟩
  · rw [if_neg hpos] at hq ⊢
    exact ⟨(rebuild_ok hq).1, (rebuild_ok hq).2.1⟩

/-- **No lookup of an expansion misses.**  The group has one individual more than what is left of it,
so that any histogram of the others, or the empty one, is completed to one of the group. -/
theorem finds_of_isExpandable (hpos : 0 < f.domainSize) (hexpandable : p.isExpandable f t = true) :
    (∀ h ∈ (f.excluding t).histograms, f.Finds h.counts)
      ∧ ((f.excluding t).domainSize = 0 → f.Finds (List.replicate f.inner.range.size 0)) := by
  have hsize := (expandsOn_of_isExpandable hexpandable).domainSize
  have hn : f.domainSize = (f.excluding t).domainSize + 1 := by omega
  refine ⟨fun h hh => CountingFormula.finds_of_mem hn hh, fun hzero => ?_⟩
  refine CountingFormula.finds_of_mem hn (h := ⟨List.replicate f.inner.range.size 0⟩) ?_
  rw [hzero, Histogram.all, Histogram.spreads_nobody]
  exact List.mem_singleton_self _

section
variable [ExactScalar K]

/-- **Expansion keeps the meaning**: let the builder have accepted a parfactor whose formulas count,
under every grounding, as many individuals as their domain size says, and at least one.  Where a term
may be taken out of a formula, no histogram is looked up in vain, and the expansion succeeds exactly
if the expanded table fits.  Then the atom for the term stands in the place of the formula, together
with the formula for the others if anybody is left, which counts its domain size under every
grounding, and the expanded parfactor means the same in every legal world. -/
theorem expand_meaning (hp : p.Accepted) (hexact : p.Exact)
    (hpos : ∀ g, Prv.count g ∈ p.prvs → 0 < g.domainSize) (hexpandable : p.isExpandable f t = true) :
    (∀ h ∈ (f.excluding t).histograms, f.Finds h.counts)
      ∧ ((f.excluding t).domainSize = 0 → f.Finds (List.replicate f.inner.range.size 0))
      ∧ ((∃ q, p.expand f t = .ok q) ↔ Index.Fits ((p.expandedPrvs f t).map Prv.rangeSize))
      ∧ ∀ q, p.expand f t = .ok q → q.constraints = p.constraints ∧ q.prvs = p.expandedPrvs f t
        ∧ (∀ γ ∈ q.solutions, ∀ g, .count g ∈ f.remainder t → g.Exact γ)
        ∧ ∀ w : World, w.Legal p.scope → q.meaning w = p.meaning w := by
  have hmem : Prv.count f ∈ p.prvs :=
    List.mem_of_getElem? (getElem?_of_position? (position?_of_isExpandable hexpandable))
  obtain ⟨hfinds, hlast⟩ := finds_of_isExpandable (hpos f hmem) hexpandable
  refine ⟨hfinds, hlast, exists_expand_iff hp.tabulated hexpandable, fun q hq => ?_⟩
  obtain ⟨hcs, hprvs⟩ := parts_expand hexpandable hq
  have hrestates := restates_expand (hp.sound hexact) hq
  refine ⟨hcs, hprvs, fun γ hγ g hg => ?_, fun w hw => ?_⟩
  · have hsound : q.Sound := hrestates.sound (.standard q) (List.mem_singleton.mpr rfl)
    refine hsound.exact γ hγ (.count g) ?_
    rw [hprvs]
    exact List.mem_append_right _ (List.mem_cons_of_mem _ (List.mem_append_left _ hg))
  · have hmeaning := hrestates.meaning w hw
    rwa [meaningOf_cons, meaningOf_nil, mul_one] at hmeaning

end

end Parfactor

/-! ## one source taken out -/

open scoped ExactScalar

namespace Epidemic

def named : LogVar := ⟨"Z", people⟩

/-- an epidemic depends on the number of sources of somebody and on whether somebody else is sick -/
def exposed : Parfactor Nat :=
  ⟨.ofList [.ordered other (.var named)], [.atom epidemic, .count sources, .atom (sick (.var named))],
    ⟨#[4, 1, 2, 3, 1, 5, 2, 2, 1, 6, 3, 1]⟩⟩

end Epidemic

/-- the one who may be sick is taken out of the sources -/
theorem Epidemic.expand_meaning_exposed : exposed.isExpandable sources (.var named) = true
    ∧ (∀ h ∈ (sources.excluding (.var named)).histograms, sources.Finds h.counts)
    ∧ ∃ q, exposed.expand sources (.var named) = .ok q
      ∧ q.prvs = exposed.expandedPrvs sources (.var named)
      ∧ (∀ γ ∈ q.solutions, ∀ g, .count g ∈ sources.remainder (.var named) → g.Exact γ)
      ∧ ∀ w : World, w.Legal exposed.scope → q.meaning w = exposed.meaning w := by
  have hformula : ∀ f, Prv.count f ∈ exposed.prvs → f = sources := fun f hf => by
    simpa [exposed] using hf
  have haccepted : exposed.Accepted := ⟨rfl, fun f hf => hformula f hf ▸ rfl, by decide⟩
  have hexact : exposed.Exact := fun γ hγ f hf =>
    hformula f hf ▸ exact_sources (other_mem hγ (by decide))
  have hpos : ∀ g, Prv.count g ∈ exposed.prvs → 0 < g.domainSize := by
    intro g hg
    rw [hformula g hg]
    decide
  have hexpandable : exposed.isExpandable sources (.var named) = true := by decide
  obtain ⟨hfinds, -, hsucceeds, hmeaning⟩ :=
    Parfactor.expand_meaning haccepted hexact hpos hexpandable
  have hfits : Index.Fits ((exposed.expandedPrvs sources (.var named)).map Prv.rangeSize) :=
    ⟨16, by decide⟩
  obtain ⟨q, hq⟩ := hsucceeds.mpr hfits
  obtain ⟨-, hprvs, hexact, hmeaning⟩ := hmeaning q hq
  exact ⟨hexpandable, hfinds, q, hq, hprvs, hexact, hmeaning⟩

end LiftedElimination
