import LiftedElimination.Proofs.Counted
import LiftedElimination.Proofs.Histogram
import LiftedElimination.Prv

/-!
# Reading random variables

A world gives every ground random variable the place of its value.  Under a valuation an atom reads
as the value of its ground instance, and a counting formula as the place of its histogram.

* `Prv.read`         the place of the value of a parameterized random variable;
* `Prv.owned`        the ground random variables it depends on;
* `read_lt`          the place is below the size of the range;
* `read_apply`       reading after a substitution is reading before it, at the pulled valuation;
* `read_congr_world` only the owned random variables matter.
-/

namespace LiftedElimination

open Finset

/-- a value for every ground random variable, by its place in the range -/
abbrev World := RandomVariable → Nat

/-- the random variables of `s` have values of their ranges -/
def World.Legal (w : World) (s : Finset RandomVariable) : Prop := ∀ v ∈ s, w v < v.range.size

theorem World.Legal.mono {w : World} {s t : Finset RandomVariable} (h : w.Legal s) (hts : t ⊆ s) :
    w.Legal t := fun v hv => h v (hts hv)

namespace CountingFormula

variable {f g : CountingFormula} {γ δ : Valuation} {w w' : World} {s : Substitution}

/-- the ground random variable of one individual of the group -/
def member (f : CountingFormula) (γ : Valuation) (c : Constant) : RandomVariable :=
  f.inner.groundVar (Function.update γ f.bound c)

/-- how many individuals of the group have each value -/
def histogram (f : CountingFormula) (γ : Valuation) (w : World) : Histogram :=
  ⟨(List.range f.inner.range.size).map fun v =>
    ((f.counted γ).filter fun c => w (f.member γ c) = v).card⟩

theorem range_member (f : CountingFormula) (γ : Valuation) (c : Constant) :
    (f.member γ c).range = f.inner.range := rfl

theorem member_congr (h : ∀ x ∈ f.freeVars, γ x = δ x) (c : Constant) :
    f.member γ c = f.member δ c := by
  refine Atom.groundVar_congr fun x hx => ?_
  by_cases hxb : x = f.bound
  · rw [hxb, Function.update_self, Function.update_self]
  · rw [Function.update_of_ne hxb, Function.update_of_ne hxb]
    exact h x (mem_freeVars.mpr (.inl ⟨hx, hxb⟩))

/-- the individual can be read off its random variable -/
theorem Valid.member_injective (hf : f.Valid) {c d : Constant} (h : f.member γ c = f.member δ d) :
    c = d := by
  have hbound := Atom.eq_of_ground_eq (congrArg RandomVariable.atom h) hf.bound_mem
  rwa [Function.update_self, Function.update_self] at hbound

theorem member_apply (hs : f.Avoids s) (γ : Valuation) (c : Constant) :
    (f.apply s).member γ c = f.member (s.pull γ) c := by
  rw [member, CountingFormula.apply, Atom.groundVar_apply]
  exact Atom.groundVar_congr fun x hx => pull_update c fun hne =>
    hs x (mem_freeVars.mpr (.inl ⟨hx, hne⟩))

theorem total_histogram (hw : ∀ c ∈ f.counted γ, w (f.member γ c) < f.inner.range.size) :
    (f.histogram γ w).total = (f.counted γ).card := by
  have hmaps : Set.MapsTo (fun c => w (f.member γ c)) (f.counted γ : Set Constant)
      (Finset.range f.inner.range.size) := fun c hc => mem_coe.mpr (mem_range.mpr (hw c hc))
  rw [Histogram.total, histogram, card_eq_sum_card_fiberwise hmaps]
  rfl

theorem histogram_congr (hf : f.Valid) (h : ∀ x ∈ f.freeVars, γ x = δ x) :
    f.histogram γ w = f.histogram δ w := by
  unfold histogram
  rw [hf.counted_congr h]
  simp only [member_congr h]

theorem histogram_congr_world (h : ∀ c ∈ f.counted γ, w (f.member γ c) = w' (f.member γ c)) :
    f.histogram γ w = f.histogram γ w' := by
  unfold histogram
  refine congrArg _ (List.map_congr_left fun v _ => congrArg card (filter_congr fun c hc => ?_))
  rw [h c hc]

theorem histogram_apply (hf : f.Valid) (hs : f.Avoids s) :
    (f.apply s).histogram γ w = f.histogram (s.pull γ) w := by
  unfold histogram
  rw [counted_apply hf hs]
  simp only [member_apply hs]
  rfl

theorem histograms_congr (hinner : g.inner.range = f.inner.range)
    (hsize : g.domainSize = f.domainSize) : g.histograms = f.histograms := by
  rw [histograms, histograms, hinner, hsize]

theorem rangeSize_congr (hinner : g.inner.range = f.inner.range)
    (hsize : g.domainSize = f.domainSize) : g.rangeSize = f.rangeSize := by
  rw [rangeSize, rangeSize, hinner, hsize]

theorem histograms_apply (hf : f.Valid) (hs : f.Avoids s) (haccurate : f.Accurate (s.pull γ)) :
    (f.apply s).histograms = f.histograms :=
  histograms_congr rfl (domainSize_apply hf hs haccurate)

theorem rangeSize_apply (hf : f.Valid) (hs : f.Avoids s) (haccurate : f.Accurate (s.pull γ)) :
    (f.apply s).rangeSize = f.rangeSize :=
  rangeSize_congr rfl (domainSize_apply hf hs haccurate)

/-- the histogram is one of those that the table is indexed by -/
theorem histogram_mem (hcard : f.Accurate γ)
    (hw : ∀ c ∈ f.counted γ, w (f.member γ c) < f.inner.range.size) :
    f.histogram γ w ∈ f.histograms := by
  refine Histogram.mem_all.mpr ⟨?_, (total_histogram hw).trans hcard⟩
  rw [histogram, List.length_map, List.length_range]

/-- the range size is the number of histograms, cut off at 64 bits -/
theorem rangeSize_eq (f : CountingFormula) : f.rangeSize = min f.histograms.length maxWord := by
  rw [histograms, Histogram.length_all, rangeSize]
  split
  · rename_i n hn
    rw [Cost.histogramCount_eq hn]
  · rename_i hinfinite
    exact (Nat.min_eq_right (Cost.le_of_histogramCount hinfinite)).symm

/-- one individual has a histogram for every value -/
theorem rangeSize_of_one (h : f.domainSize = 1) : f.rangeSize = min f.inner.range.size maxWord := by
  rw [rangeSize_eq, histograms, h, Histogram.all_one, List.length_map, List.length_range]

/-- a range size of fewer than 64 bits is the number of histograms -/
theorem length_histograms (h : f.rangeSize < maxWord) : f.histograms.length = f.rangeSize := by
  have := rangeSize_eq f
  omega

end CountingFormula

namespace Prv

variable {q : Prv} {γ δ : Valuation} {w w' : World} {s : Substitution}

/-- the place of the value under a valuation, in a world -/
def read : Prv → Valuation → World → Nat
  | atom a, γ, w => w (a.groundVar γ)
  | count f, γ, w => f.histograms.idxOf (f.histogram γ w)

/-- the ground random variables that the value depends on -/
def owned : Prv → Valuation → Finset RandomVariable
  | atom a, γ => {a.groundVar γ}
  | count f, γ => (f.counted γ).image (f.member γ)

@[simp] theorem read_atom (a : Atom) (γ : Valuation) (w : World) :
    (atom a).read γ w = w (a.groundVar γ) := rfl

@[simp] theorem read_count (f : CountingFormula) (γ : Valuation) (w : World) :
    (count f).read γ w = f.histograms.idxOf (f.histogram γ w) := rfl

@[simp] theorem owned_atom (a : Atom) (γ : Valuation) : (atom a).owned γ = {a.groundVar γ} := rfl

@[simp] theorem owned_count (f : CountingFormula) (γ : Valuation) :
    (count f).owned γ = (f.counted γ).image (f.member γ) := rfl

/-- a counting formula has been checked -/
def Valid : Prv → Prop
  | atom _ => True
  | count f => f.Valid

/-- a counting formula is exact -/
def Exact : Prv → Valuation → Prop
  | atom _, _ => True
  | count f, γ => f.Exact γ

/-- a counting formula is accurate -/
def Accurate : Prv → Valuation → Prop
  | atom _, _ => True
  | count f, γ => f.Accurate γ

theorem Exact.accurate (h : q.Exact γ) : q.Accurate γ := by
  cases q with
  | atom a => trivial
  | count f => exact CountingFormula.Exact.card h

/-- no free variable of a formula becomes its bound one -/
def Avoids : Prv → Substitution → Prop
  | atom _, _ => True
  | count f, s => f.Avoids s

theorem exact_congr (hq : q.Valid) (h : ∀ x ∈ q.freeVars, γ x = δ x) (hexact : q.Exact γ) :
    q.Exact δ := by
  cases q with
  | atom a => trivial
  | count f =>
    refine ⟨?_, hexact.pos⟩
    rw [← hexact.card, hq.counted_congr h]

theorem accurate_congr (hq : q.Valid) (h : ∀ x ∈ q.freeVars, γ x = δ x) (hcard : q.Accurate γ) :
    q.Accurate δ := by
  cases q with
  | atom a => trivial
  | count f => exact (congrArg card (hq.counted_congr h)).symm.trans hcard

theorem read_congr (hq : q.Valid) (h : ∀ x ∈ q.freeVars, γ x = δ x) :
    q.read γ w = q.read δ w := by
  cases q with
  | atom a => exact congrArg w (Atom.groundVar_congr h)
  | count f => rw [read_count, read_count, CountingFormula.histogram_congr hq h]

theorem owned_congr (hq : q.Valid) (h : ∀ x ∈ q.freeVars, γ x = δ x) :
    q.owned γ = q.owned δ := by
  cases q with
  | atom a => rw [owned_atom, owned_atom, Atom.groundVar_congr h]
  | count f =>
    rw [owned_count, owned_count, CountingFormula.Valid.counted_congr hq h]
    exact image_congr fun c _ => CountingFormula.member_congr h c

/-- **Only the owned random variables matter.** -/
theorem read_congr_world (h : ∀ v ∈ q.owned γ, w v = w' v) : q.read γ w = q.read γ w' := by
  cases q with
  | atom a => exact h _ (mem_singleton_self _)
  | count f =>
    rw [read_count, read_count, CountingFormula.histogram_congr_world fun c hc =>
      h _ (mem_image_of_mem _ hc)]

/-- **Reading after a substitution** is reading before it. -/
theorem read_apply (hq : q.Valid) (hs : q.Avoids s) (haccurate : q.Accurate (s.pull γ)) :
    (q.apply s).read γ w = q.read (s.pull γ) w := by
  cases q with
  | atom a => exact congrArg w (Atom.groundVar_apply a s γ)
  | count f =>
    show (f.apply s).histograms.idxOf _ = _
    rw [CountingFormula.histograms_apply hq hs haccurate, CountingFormula.histogram_apply hq hs]
    rfl

theorem owned_apply (hq : q.Valid) (hs : q.Avoids s) :
    (q.apply s).owned γ = q.owned (s.pull γ) := by
  cases q with
  | atom a =>
    show {(a.apply s).groundVar γ} = _
    rw [Atom.groundVar_apply, owned_atom]
  | count f =>
    show ((f.apply s).counted γ).image _ = _
    rw [CountingFormula.counted_apply hq hs]
    exact image_congr fun c _ => CountingFormula.member_apply hs γ c

theorem rangeSize_apply (hq : q.Valid) (hs : q.Avoids s) (haccurate : q.Accurate (s.pull γ)) :
    (q.apply s).rangeSize = q.rangeSize := by
  cases q with
  | atom a => rfl
  | count f => exact CountingFormula.rangeSize_apply hq hs haccurate

theorem Valid.apply (hq : q.Valid) (hs : q.Avoids s) : (q.apply s).Valid := by
  cases q with
  | atom a => trivial
  | count f => exact CountingFormula.Valid.apply hq hs

theorem Exact.apply (hq : q.Valid) (hs : q.Avoids s) (hexact : q.Exact (s.pull γ)) :
    (q.apply s).Exact γ := by
  cases q with
  | atom a => trivial
  | count f => exact CountingFormula.Exact.apply hq hs hexact

theorem Accurate.apply (hq : q.Valid) (hs : q.Avoids s) (haccurate : q.Accurate (s.pull γ)) :
    (q.apply s).Accurate γ := by
  cases q with
  | atom a => trivial
  | count f => exact CountingFormula.Accurate.apply hq hs haccurate

theorem mem_freeVars_apply (hq : q.Valid) (hs : q.Avoids s) {z : LogVar} :
    z ∈ (q.apply s).freeVars ↔ ∃ x ∈ q.freeVars, s.apply (.var x) = .var z := by
  cases q with
  | atom a => exact Atom.mem_variables_apply
  | count f =>
    have hother : ∀ x, x ≠ f.bound →
        (s.without (· = f.bound)).apply (.var x) = s.apply (.var x) := fun x hx =>
      Substitution.apply_without_ne s hx
    show z ∈ (f.apply s).freeVars ↔ ∃ x ∈ f.freeVars, _
    rw [CountingFormula.mem_freeVars, CountingFormula.mem_excludedVars_iff,
      CountingFormula.mem_exclusions_apply hq hs]
    show z ∈ (f.inner.apply _).variables ∧ z ≠ f.bound ∨ _ ↔ _
    rw [Atom.mem_variables_apply]
    constructor
    · rintro (⟨⟨x, hx, hxz⟩, hzb⟩ | ⟨t, ht, htz⟩)
      · have hxb : x ≠ f.bound := by
          rintro rfl
          rw [Substitution.apply_without_self] at hxz
          exact hzb (Term.var.inj hxz).symm
        exact ⟨x, CountingFormula.mem_freeVars.mpr (.inl ⟨hx, hxb⟩), hother x hxb ▸ hxz⟩
      · cases t with
        | const c => cases htz
        | var x =>
          refine ⟨x, CountingFormula.mem_freeVars.mpr (.inr ?_), htz⟩
          exact CountingFormula.mem_excludedVars_iff.mpr ht
    · rintro ⟨x, hx, hxz⟩
      have hzb : z ≠ f.bound := fun h => hs x hx (hxz.trans (congrArg _ h))
      rcases CountingFormula.mem_freeVars.mp hx with ⟨hxi, hxb⟩ | hxe
      · exact .inl ⟨⟨x, hxi, (hother x hxb).trans hxz⟩, hzb⟩
      · exact .inr ⟨.var x, CountingFormula.mem_excludedVars_iff.mp hxe, hxz⟩

/-- the range size is the number of values, which 64 bits hold -/
def Tabular : Prv → Prop
  | atom _ => True
  | count f => f.histograms.length = f.rangeSize

theorem tabular_of_lt (h : q.rangeSize < maxWord) : q.Tabular := by
  cases q with
  | atom a => trivial
  | count f => exact CountingFormula.length_histograms h

theorem Tabular.apply (hq : q.Valid) (hs : q.Avoids s) (haccurate : q.Accurate (s.pull γ))
    (h : q.Tabular) : (q.apply s).Tabular := by
  cases q with
  | atom a => trivial
  | count f =>
    show (f.apply s).histograms.length = (f.apply s).rangeSize
    rw [CountingFormula.histograms_apply hq hs haccurate,
      CountingFormula.rangeSize_apply hq hs haccurate]
    exact h

theorem read_mem (hcard : q.Accurate γ) (hw : w.Legal (q.owned γ)) {f : CountingFormula}
    (hf : q = count f) : f.histogram γ w ∈ f.histograms := by
  subst hf
  exact CountingFormula.histogram_mem hcard fun c hc => hw _ (mem_image_of_mem _ hc)

/-- the place is below the size of the range -/
theorem read_lt (hcard : q.Accurate γ) (hw : w.Legal (q.owned γ)) (h : q.Tabular) :
    q.read γ w < q.rangeSize := by
  cases q with
  | atom a => exact hw _ (mem_singleton_self _)
  | count f =>
    rw [show (count f).rangeSize = f.rangeSize from rfl, ← show _ = f.rangeSize from h]
    exact List.idxOf_lt_length_of_mem (read_mem hcard hw rfl)

/-- a random variable with a legal value has a value at all -/
theorem rangeSize_pos (hcard : q.Accurate γ) (hw : w.Legal (q.owned γ)) : 0 < q.rangeSize := by
  cases q with
  | atom a => exact Nat.zero_lt_of_lt (hw _ (mem_singleton_self _))
  | count f =>
    refine Nat.pos_of_ne_zero fun hzero => ?_
    have htab : (count f).Tabular := tabular_of_lt (hzero.trans_lt (by decide))
    have hlt := read_lt hcard hw htab
    rw [hzero] at hlt
    exact Nat.not_lt_zero _ hlt

end Prv

end LiftedElimination
