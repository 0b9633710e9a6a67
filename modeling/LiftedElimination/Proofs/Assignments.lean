import LiftedElimination.Proofs.Override
import LiftedElimination.Proofs.Meaning
import LiftedElimination.Parfactor.SumOut

/-!
# Assignments and their histograms

A sum over all assignments of the random variables that a counting formula depends on is a sum over
histograms, each weighted with the number of assignments that have it, which is a multinomial
coefficient.

* `ways`               the multinomial coefficient, one binomial coefficient for each count;
* `card_tally_eq`      so many functions take the values as often as listed;
* `multinomial_eq`     the alternating products and quotients compute it exactly;
* `sum_assignments`    a sum over the assignments of what a random variable owns.
-/

namespace LiftedElimination

open Finset

namespace Histogram

/-! ## multinomial coefficients -/

/-- the number of ways to choose who has each value, with `seen` individuals chosen before -/
def ways : Nat → List Nat → Nat
  | _, [] => 1
  | seen, h :: hs => (seen + h).choose h * ways (seen + h) hs

theorem ways_append_singleton (l : List Nat) (h seen : Nat) :
    ways seen (l ++ [h]) = ways seen l * (seen + l.sum + h).choose h := by
  induction l generalizing seen with
  | nil =>
    show (seen + h).choose h * 1 = 1 * (seen + 0 + h).choose h
    rw [Nat.mul_one, Nat.one_mul, Nat.add_zero]
  | cons k l ih =>
    show (seen + k).choose k * ways (seen + k) (l ++ [h]) = (seen + k).choose k * ways (seen + k) l * _
    rw [ih, List.sum_cons, ← Nat.mul_assoc, ← Nat.add_assoc]

section
variable {K : Type} [ExactScalar K]

/-- **Alternating products and quotients** compute a binomial coefficient without rest. -/
theorem multiplyRun_eq (a n j seen : Nat) :
    multiplyRun n (j + 1) (seen + j) ((a * (seen + j).choose j : Nat) : K)
      = ((a * (seen + j + n).choose (j + n) : Nat) : K) := by
  induction n generalizing j with
  | zero => rfl
  | succ n ih =>
    have hchoose : a * (seen + j).choose j * (seen + j + 1)
        = a * (seen + j + 1).choose (j + 1) * (j + 1) := by
      rw [Nat.mul_assoc, Nat.mul_assoc, Nat.mul_comm ((seen + j).choose j), ← Nat.succ_eq_add_one,
        Nat.add_one_mul_choose_eq]
    rw [multiplyRun, ExactScalar.ofNat_eq, ExactScalar.ofNat_eq, ← Nat.cast_mul, hchoose,
      ExactScalar.mul_div_eq _ _ (Nat.succ_ne_zero j)]
    have hnext := ih (j + 1)
    rw [← Nat.add_assoc, Nat.add_right_comm (seen + j) 1 n, Nat.add_right_comm j 1 n] at hnext
    exact hnext

theorem multiplyCounts_eq (l : List Nat) (seen a : Nat) :
    multiplyCounts l seen ((a : Nat) : K) = ((a * ways seen l : Nat) : K) := by
  induction l generalizing seen a with
  | nil =>
    rw [multiplyCounts, ways, Nat.mul_one]
  | cons h hs ih =>
    have hrun := multiplyRun_eq (K := K) a h 0 seen
    rw [Nat.zero_add, Nat.add_zero, Nat.choose_zero_right, Nat.mul_one, Nat.zero_add] at hrun
    rw [multiplyCounts, hrun, ih, ways, Nat.mul_assoc]

theorem multinomial_eq (h : Histogram) : multinomial K h = ((ways 0 h.counts : Nat) : K) := by
  have hcounts := multiplyCounts_eq (K := K) h.counts 0 1
  rwa [Nat.cast_one, Nat.one_mul] at hcounts

end

/-! ## functions with a histogram -/

section
variable {α : Type} [DecidableEq α]

omit [DecidableEq α] in
theorem tally_succ (b : Nat) (s : Finset α) (g : α → Nat) :
    tally (b + 1) s g = tally b s g ++ [(s.filter fun a => g a = b).card] := by
  rw [tally, List.range_succ, List.map_append]
  rfl

/-- where the last value is taken does not matter for the tally of the other values -/
theorem tally_sdiff {s t : Finset α} {n : Nat} {g : α → Nat} (h : s.filter (fun a => g a = n) = t) :
    tally n (s \ t) g = tally n s g := by
  subst h
  refine List.map_congr_left fun v hv => congrArg card ?_
  have hne : v ≠ n := (List.mem_range.mp hv).ne
  ext a
  simp only [mem_filter, mem_sdiff, not_and]
  exact ⟨fun h => ⟨h.1.1, h.2⟩, fun h => ⟨⟨h.1, fun _ hg => hne (h.2.symm.trans hg)⟩, h.2⟩⟩

/-- the functions that take the last value on `t` and have the tally `l` on the rest -/
theorem filter_tally_eq {s t : Finset α} (ht : t ⊆ s) (l : List Nat) (base : α → Nat) :
    ((overrides s (fun _ => range (l.length + 1)) base).filter fun g =>
        tally (l.length + 1) s g = l ++ [t.card]).filter (fun g => s.filter (fun a => g a = l.length) = t)
      = (overrides (s \ t) (fun _ => range l.length) fun a => if a ∈ t then l.length else base a).filter
          fun g => tally l.length (s \ t) g = l := by
  ext g
  simp only [mem_filter, mem_overrides, mem_range, mem_sdiff, not_and, not_not]
  constructor
  · rintro ⟨⟨⟨hlt, hout⟩, hl⟩, hlast⟩
    refine ⟨⟨fun a ha => ?_, fun a ha => ?_⟩, ?_⟩
    · have hne : g a ≠ l.length := fun h => ha.2 (hlast ▸ mem_filter.mpr ⟨ha.1, h⟩)
      have := hlt a ha.1
      omega
    · by_cases hat : a ∈ t
      · rw [if_pos hat]
        rw [← hlast] at hat
        exact (mem_filter.mp hat).2
      · rw [if_neg hat]
        exact hout a fun has => hat (ha has)
    · rw [tally_sdiff hlast]
      rw [tally_succ] at hl
      exact (List.append_inj' hl rfl).1
  · rintro ⟨⟨hlt, hout⟩, hl⟩
    have hlast : s.filter (fun a => g a = l.length) = t := by
      ext a
      rw [mem_filter]
      constructor
      · rintro ⟨has, hga⟩
        by_contra hat
        exact (hlt a ⟨has, hat⟩).ne hga
      · intro hat
        refine ⟨ht hat, ?_⟩
        rw [hout a fun _ => hat, if_pos hat]
    refine ⟨⟨⟨fun a has => ?_, fun a has => ?_⟩, ?_⟩, hlast⟩
    · by_cases hat : a ∈ t
      · rw [hout a fun _ => hat, if_pos hat]
        exact Nat.lt_succ_self _
      · exact (hlt a ⟨has, hat⟩).trans (Nat.lt_succ_self _)
    · rw [hout a fun h => absurd h has, if_neg fun hat => has (ht hat)]
    · rw [tally_succ, ← tally_sdiff hlast, hl, hlast]

/-- **So many functions** take the values as often as listed. -/
theorem card_tally_eq (l : List Nat) (s : Finset α) (hl : l.sum = s.card) (base : α → Nat) :
    ((overrides s (fun _ => range l.length) base).filter fun g => tally l.length s g = l).card
      = ways 0 l := by
  induction l using List.reverseRecOn generalizing s base with
  | nil =>
    have hs : s = ∅ := card_eq_zero.mp hl.symm
    subst hs
    rw [overrides_empty]
    rfl
  | append_singleton l h ih =>
    rw [List.sum_append, List.sum_singleton] at hl
    have hmaps : ∀ g ∈ (overrides s (fun _ => range (l.length + 1)) base).filter
        (fun g => tally (l.length + 1) s g = l ++ [h]),
        s.filter (fun a => g a = l.length) ∈ s.powersetCard h := by
      intro g hg
      have htally := (mem_filter.mp hg).2
      rw [tally_succ] at htally
      exact mem_powersetCard.mpr ⟨filter_subset _ _,
        List.singleton_inj.mp (List.append_inj' htally rfl).2⟩
    have hfiber : ∀ t ∈ s.powersetCard h,
        (((overrides s (fun _ => range (l.length + 1)) base).filter
          fun g => tally (l.length + 1) s g = l ++ [h]).filter
            fun g => s.filter (fun a => g a = l.length) = t).card = ways 0 l := by
      intro t ht
      obtain ⟨hts, htcard⟩ := mem_powersetCard.mp ht
      subst htcard
      rw [filter_tally_eq hts, ih]
      rw [card_sdiff_of_subset hts, ← hl, Nat.add_sub_cancel]
    rw [List.length_append, List.length_singleton, card_eq_sum_card_fiberwise hmaps,
      sum_congr rfl hfiber, sum_const, card_powersetCard, ways_append_singleton, smul_eq_mul,
      Nat.zero_add, hl, Nat.mul_comm]

end

end Histogram

/-! ## sums over assignments -/

/-- the assignments of values to the random variables of `s`, which leave the rest as in `w` -/
def World.assignments (w : World) (s : Finset RandomVariable) : Finset World :=
  overrides s (fun v => range v.range.size) w

theorem World.mem_assignments {w u : World} {s : Finset RandomVariable} :
    u ∈ w.assignments s ↔ (∀ v ∈ s, u v < v.range.size) ∧ ∀ v ∉ s, u v = w v := by
  rw [assignments, mem_overrides]
  simp only [mem_range]

theorem World.legal_of_mem_assignments {w u : World} {s t : Finset RandomVariable}
    (hu : u ∈ w.assignments s) (hw : w.Legal (t \ s)) : u.Legal t := by
  obtain ⟨hs, hout⟩ := mem_assignments.mp hu
  intro v hv
  by_cases hvs : v ∈ s
  · exact hs v hvs
  · rw [hout v hvs]
    exact hw v (mem_sdiff.mpr ⟨hv, hvs⟩)

namespace CountingFormula

variable {f : CountingFormula} {γ : Valuation}

/-- the histogram of the group is the tally of what the formula owns -/
theorem histogram_eq_tally (hf : f.Valid) (w : World) : f.histogram γ w
    = ⟨Histogram.tally f.inner.range.size ((f.counted γ).image (f.member γ)) w⟩ := by
  have hinj : Function.Injective (f.member γ) := fun _ _ h => hf.member_injective h
  unfold histogram Histogram.tally
  congr 1
  refine List.map_congr_left fun v _ => ?_
  rw [filter_image, card_image_of_injective _ hinj]

/-- so many assignments have the histogram -/
theorem card_histogram_eq (hf : f.Valid) (haccurate : f.Accurate γ) (w : World) {h : Histogram}
    (hh : h ∈ f.histograms) :
    ((w.assignments ((f.counted γ).image (f.member γ))).filter fun u => f.histogram γ u = h).card
      = Histogram.ways 0 h.counts := by
  have hinj : Function.Injective (f.member γ) := fun _ _ h => hf.member_injective h
  obtain ⟨hlen, htotal⟩ := Histogram.mem_all.mp hh
  have hcard : ((f.counted γ).image (f.member γ)).card = f.domainSize := by
    exact (card_image_of_injective _ hinj).trans haccurate
  have hchoices : w.assignments ((f.counted γ).image (f.member γ))
      = overrides ((f.counted γ).image (f.member γ)) (fun _ => range h.counts.length) w := by
    ext u
    rw [World.mem_assignments, mem_overrides]
    refine and_congr_left fun _ => forall₂_congr fun v hv => ?_
    obtain ⟨c, -, rfl⟩ := mem_image.mp hv
    rw [range_member, hlen, mem_range]
  rw [hchoices, ← Histogram.card_tally_eq h.counts _ (htotal.trans hcard.symm) w]
  refine congrArg card (filter_congr fun u _ => ?_)
  rw [histogram_eq_tally hf, hlen]
  exact ⟨fun h => congrArg Histogram.counts h, fun h => congrArg Histogram.mk h⟩

end CountingFormula

namespace Prv

variable {K : Type} [ExactScalar K] {q : Prv} {γ : Valuation}

/-- an atom takes each of its values once -/
theorem sum_assignments_atom (a : Atom) (w : World) (F : Nat → K) :
    ∑ u ∈ w.assignments ((atom a).owned γ), F ((atom a).read γ u)
      = ∑ k ∈ range (Parfactor.weights (K := K) (atom a)).length,
          (Parfactor.weights (atom a)).getD k 0 * F k := by
  have hlen : (Parfactor.weights (K := K) (.atom a)).length = a.range.size :=
    List.length_replicate
  rw [hlen]
  refine sum_nbij' (fun u => u (a.groundVar γ)) (fun k => Function.update w (a.groundVar γ) k)
    (fun u hu => ?_) (fun k hk => ?_) (fun u hu => ?_) (fun k _ => Function.update_self _ _ _)
    fun u hu => ?_
  · exact mem_range.mpr ((World.mem_assignments.mp hu).1 _ (mem_singleton_self _))
  · refine World.mem_assignments.mpr ⟨fun v hv => ?_, fun v hv => ?_⟩
    · rw [mem_singleton.mp hv, Function.update_self]
      exact mem_range.mp hk
    · exact Function.update_of_ne (fun h => hv (mem_singleton.mpr h)) _ _
  · funext v
    by_cases hv : v = a.groundVar γ
    · rw [hv, Function.update_self]
    · rw [Function.update_of_ne hv]
      exact ((World.mem_assignments.mp hu).2 v fun h => hv (mem_singleton.mp h)).symm
  · have hlt : u (a.groundVar γ) < a.range.size :=
      (World.mem_assignments.mp hu).1 _ (mem_singleton_self (a.groundVar γ))
    have hone : (Parfactor.weights (K := K) (.atom a)).getD (u (a.groundVar γ)) 0 = 1 := by
      rw [List.getD_eq_getElem?_getD]
      show ((List.replicate a.range.size (1 : K))[_]?).getD 0 = 1
      rw [List.getElem?_replicate_of_lt hlt]
      rfl
    rw [hone, one_mul, read_atom]

/-- a formula takes each histogram as often as there are assignments with it -/
theorem sum_assignments_count {f : CountingFormula} (hf : f.Valid) (haccurate : f.Accurate γ)
    (w : World) (F : Nat → K) :
    ∑ u ∈ w.assignments ((count f).owned γ), F ((count f).read γ u)
      = ∑ k ∈ range (Parfactor.weights (K := K) (count f)).length,
          (Parfactor.weights (count f)).getD k 0 * F k := by
  have hlen : (Parfactor.weights (K := K) (.count f)).length = f.histograms.length :=
    List.length_map _
  have hmaps : ∀ u ∈ w.assignments ((count f).owned γ), f.histogram γ u
      ∈ f.histograms.toFinset := by
    intro u hu
    refine List.mem_toFinset.mpr (CountingFormula.histogram_mem haccurate fun c hc => ?_)
    exact (World.mem_assignments.mp hu).1 _ (mem_image_of_mem _ hc)
  rw [hlen, ← sum_fiberwise_of_maps_to hmaps]
  refine sum_nbij' (fun h => f.histograms.idxOf h) (fun k => f.histograms.getD k default)
    (fun h hh => ?_) (fun k hk => ?_) (fun h hh => ?_) (fun k hk => ?_) fun h hh => ?_
  · exact mem_range.mpr (List.idxOf_lt_length_of_mem (List.mem_toFinset.mp hh))
  · rw [List.getD_eq_getElem _ _ (mem_range.mp hk)]
    exact List.mem_toFinset.mpr (List.getElem_mem _)
  · rw [List.getD_eq_getElem?_getD, List.getElem?_idxOf (List.mem_toFinset.mp hh)]
    rfl
  · rw [List.getD_eq_getElem _ _ (mem_range.mp hk)]
    exact (Histogram.nodup_all _ _).idxOf_getElem k (mem_range.mp hk)
  · have hh := List.mem_toFinset.mp hh
    have hweight : (Parfactor.weights (K := K) (.count f)).getD (f.histograms.idxOf h) 0
        = Histogram.multinomial K h := by
      rw [List.getD_eq_getElem?_getD]
      show ((f.histograms.map (Histogram.multinomial K))[_]?).getD 0 = _
      rw [List.getElem?_map, List.getElem?_idxOf hh]
      rfl
    have hread : ∀ u ∈ (w.assignments ((count f).owned γ)).filter fun u => f.histogram γ u = h,
        F ((count f).read γ u) = F (f.histograms.idxOf h) := by
      intro u hu
      rw [read_count, (mem_filter.mp hu).2]
    rw [sum_congr rfl hread, sum_const, owned_count,
      CountingFormula.card_histogram_eq hf haccurate w hh,
      hweight, Histogram.multinomial_eq, nsmul_eq_mul]

/-- **A sum over assignments** is a weighted sum over the values of the random variable. -/
theorem sum_assignments (hq : q.Valid) (haccurate : q.Accurate γ) (w : World) (F : Nat → K) :
    ∑ u ∈ w.assignments (q.owned γ), F (q.read γ u)
      = ∑ k ∈ range (Parfactor.weights (K := K) q).length,
          (Parfactor.weights q).getD k 0 * F k := by
  cases q with
  | atom a => exact sum_assignments_atom a w F
  | count f => exact sum_assignments_count hq haccurate w F

end Prv

end LiftedElimination
