import LiftedElimination.Proofs.Conversion
import LiftedElimination.Proofs.Distinct
import LiftedElimination.Proofs.Expandable
import LiftedElimination.Proofs.FactorLimit
import LiftedElimination.Proofs.Multiplication

/-!
# Estimated and built tables

The cost of an operation is computed from the table sizes before it, by formulas that share nothing
with the code that builds the tables.  For tables with an entry for every assignment both agree.  A
range is cut off at 64 bits, a cost is not, but memory holds no table for which this makes a difference.

* `Full.size_count`, `exists_count`       counting builds a table of the estimated size;
* `Expanding`                             the table on its way to the full expansion;
* `Expanding.step`                        one individual leaves the size in the end as it is;
* `ExpandingTo.size_expandAll`, `exists_expandAll`   so do all of them in turn, and then it is reached;
* `prvs_multiplyAll`                      a product is over the union of the random variables;
* `exists_multiplyAll`                    and it is found if memory holds its table.
-/

namespace LiftedElimination

variable {K : Type}

/-! ## numbers -/

/-- a table of positive sizes fits if it has few enough entries -/
theorem Index.fits_iff_of_pos {sizes : List Nat} (hpos : 0 < sizes.prod) :
    Fits sizes ↔ sizes.prod ≤ maxEntries := by
  refine ⟨fun h => (fits_iff.mp h).2, fun hle => fits_iff.mpr ⟨⟨_, volumeFrom?_eq ?_ ?_⟩, hle⟩⟩
  · rwa [Nat.one_mul]
  · rw [Nat.one_mul]
    exact hle.trans (by decide)

/-- what is cut off at 64 bits is all there if it is part of a table that memory holds, or would be one
without the cut -/
theorem Index.min_maxWord_mul {k m : Nat} (hm : 0 < m)
    (h : min k maxWord * m ≤ maxEntries ∨ m * k ≤ maxEntries) : min k maxWord * m = m * k := by
  have hwords : maxEntries < maxWord := by decide
  have hk : k ≤ maxWord := by
    by_contra hlt
    have hlt := Nat.lt_of_not_le hlt
    rw [min_eq_right hlt.le] at h
    rcases h with h | h
    · exact absurd ((Nat.le_mul_of_pos_right _ hm).trans h) (Nat.not_le.mpr hwords)
    · exact absurd ((Nat.le_mul_of_pos_left k hm).trans h) (Nat.not_le.mpr (hwords.trans hlt))
  rw [min_eq_left hk, Nat.mul_comm]

/-- there are no more multisets than lists -/
theorem choose_le_pow (n b : Nat) : (n + b).choose b ≤ (b + 1) ^ n := by
  rw [← Nat.choose_symm_add]
  induction n with
  | zero => exact (Nat.choose_zero_right _).le
  | succ n ih =>
    refine Nat.le_of_mul_le_mul_right ?_ n.succ_pos
    calc (n + 1 + b).choose (n + 1) * (n + 1) = (n + b + 1) * (n + b).choose n := by
          rw [Nat.add_one_mul_choose_eq, Nat.add_right_comm]
      _ ≤ ((b + 1) * (n + 1)) * (b + 1) ^ n := Nat.mul_le_mul (by nlinarith) ih
      _ = (b + 1) ^ (n + 1) * (n + 1) := by ring

namespace CountingFormula

variable {f : CountingFormula}

/-- if somebody is counted in some way, the atom has a value -/
theorem inner_pos (h : 0 < f.rangeSize) (hpos : 0 < f.domainSize) : 0 < f.inner.range.size := by
  refine Nat.pos_of_ne_zero fun hzero => ?_
  rw [rangeSize, hzero, Cost.histogramCount, if_pos rfl, if_neg hpos.ne'] at h
  exact h.ne' (Nat.zero_min _)

/-- there are no more histograms than assignments of values to the individuals -/
theorem rangeSize_le_pow (h : 0 < f.inner.range.size) :
    f.rangeSize ≤ f.inner.range.size ^ f.domainSize := by
  obtain ⟨b, hb⟩ := Nat.exists_eq_add_one_of_ne_zero h.ne'
  refine f.rangeSize_le_length.trans ?_
  rw [histograms, Histogram.length_all, hb, Histogram.length_spreads]
  exact choose_le_pow _ b

end CountingFormula

namespace Parfactor

variable {p q r : Parfactor K} {f : CountingFormula} {x : LogVar} {c : Constant} {v : Prv} {n : Nat}

theorem Dense.prod_pos (hp : p.Dense) : 0 < p.sizes.prod := prod_rangeSize_pos hp.values

/-- the table has one share for each value of a random variable -/
theorem Dense.share (hp : p.Dense) (hv : v ∈ p.prvs) :
    p.factor.size = v.rangeSize * (p.factor.size / v.rangeSize) ∧ 0 < p.factor.size / v.rangeSize := by
  have hdvd : v.rangeSize ∣ p.factor.size :=
    hp.tabulated.size ▸ List.dvd_prod (List.mem_map_of_mem hv)
  have hsize : 0 < p.factor.size := hp.tabulated.size ▸ hp.prod_pos
  exact ⟨(Nat.mul_div_cancel' hdvd).symm, Nat.div_pos (Nat.le_of_dvd hsize hdvd) (hp.values v hv)⟩

/-- another random variable in the place of one of them has the share for each of its values -/
theorem Dense.prod_set {i : Nat} (hp : p.Dense) (hi : p.prvs[i]? = some v) (n : Nat) :
    (p.sizes.set i n).prod = n * (p.factor.size / v.rangeSize) := by
  have hmem : v ∈ p.prvs := List.mem_of_getElem? hi
  have hi := getElem?_sizes hi
  obtain ⟨hlt, -⟩ := List.getElem?_eq_some_iff.mp hi
  rw [(List.set_perm_cons_eraseIdx hlt n).prod_eq, List.prod_cons]
  refine congrArg _ (Nat.eq_of_mul_eq_mul_left (hp.values v hmem) ?_)
  rw [prod_eraseIdx hi, ← hp.tabulated.size, ← (hp.share hmem).1]

/-! ## counting -/

/-- **The estimate of counting** is the number of entries of the counted table, as soon as one of the
two is small enough for memory. -/
theorem Dense.countedSizes (hp : p.Dense) (hcountable : p.isCountable x = true)
    (hcost : Operation.countCost p x = .finite n) : 0 < (p.countedSizes x).prod
      ∧ ((p.countedSizes x).prod ≤ Index.maxEntries ∨ n ≤ Index.maxEntries →
        (p.countedSizes x).prod = n) := by
  obtain ⟨i, a, hholder⟩ := exists_holder hcountable
  have hi := (holder?_eq_some hholder).1
  have ha : 0 < a.range.size := hp.values _ (List.mem_of_getElem? hi)
  have hshare : 0 < p.factor.size / a.range.size := (hp.share (List.mem_of_getElem? hi)).2
  rw [Operation.countCost, hholder] at hcost
  dsimp only at hcost
  rw [show max (Prv.atom a).rangeSize 1 = a.range.size from max_eq_left ha,
    ← domainSize_onVariable p x a] at hcost
  obtain ⟨k, hk, rfl⟩ := Cost.mul_eq_finite hshare hcost
  have hrange : CountingFormula.rangeSize ⟨x, a, p.constraints.onVariable x⟩ = min k maxWord :=
    CountingFormula.rangeSize_of_histogramCount hk
  have hprod : (p.countedSizes x).prod = min k maxWord * (p.factor.size / a.range.size) := by
    rw [Parfactor.countedSizes, hholder, ← hrange]
    exact hp.prod_set hi _
  rw [hprod]
  refine ⟨?_, Index.min_maxWord_mul hshare⟩
  rw [← hrange]
  exact Nat.mul_pos (CountingFormula.rangeSize_pos ha) hshare

/-- **A counted table** has as many entries as estimated. -/
theorem Full.size_count [Scalar K] (hp : p.Full) (hcost : Operation.countCost p x = .finite n)
    (h : p.count x = .ok r) : r.factor.size = n ∧ n ≤ Index.maxEntries := by
  obtain ⟨hcountable, i, a, -, -, hr⟩ := count_ok h
  have htabulated := tabulated_of_rebuild hr
  have hprod : r.factor.size = (p.countedSizes x).prod :=
    htabulated.size.trans (congrArg List.prod (sizes_count hp.satisfiable h))
  have hn := (hp.countedSizes hcountable hcost).2 (.inl (hprod ▸ htabulated.stored))
  have hsize : r.factor.size = n := hprod.trans hn
  exact ⟨hsize, hsize ▸ htabulated.stored⟩

/-- **Counting succeeds** if memory holds as many entries as estimated. -/
theorem Full.exists_count [Scalar K] (hp : p.Full) (hcountable : p.isCountable x = true)
    (hcost : Operation.countCost p x = .finite n) (hle : n ≤ Index.maxEntries) :
    ∃ r, p.count x = .ok r := by
  obtain ⟨hpos, hprod⟩ := hp.countedSizes hcountable hcost
  rw [exists_count_iff hp.tabulated hp.satisfiable hcountable, Index.fits_iff_of_pos hpos,
    hprod (.inr hle)]
  exact hle

/-! ## expansion -/

theorem mem_expandedPrvs {t : Term} (hv : v ∈ p.expandedPrvs f t) :
    v ∈ p.prvs ∨ v = .atom (f.instantiate t) ∨ v = .count (f.excluding t) := by
  rcases List.mem_append.mp hv with hv | hv
  · exact .inl (List.mem_of_mem_take hv)
  rcases List.mem_cons.mp hv with hv | hv
  · exact .inr (.inl hv)
  rcases List.mem_append.mp hv with hv | hv
  · unfold CountingFormula.remainder at hv
    split at hv
    · exact .inr (.inr (List.mem_singleton.mp hv))
    · cases hv
  · exact .inl (List.mem_of_mem_drop hv)

/-- the expanded table has the share for the values of the one taken out and the histograms of the
others -/
theorem Dense.prod_expandedPrvs (hp : p.Dense) (hf : .count f ∈ p.prvs) (t : Term) :
    ((p.expandedPrvs f t).map Prv.rangeSize).prod
      = p.factor.size / f.rangeSize * (f.inner.range.size * (f.excluding t).rangeSize) := by
  have hremainder : ((f.remainder t).map Prv.rangeSize).prod = (f.excluding t).rangeSize := by
    unfold CountingFormula.remainder
    split
    · exact List.prod_singleton
    · rename_i hnobody
      exact (CountingFormula.rangeSize_of_nobody (Nat.eq_zero_of_not_pos hnobody)).symm
  have haround := prod_around (List.getElem?_idxOf hf) (.atom (f.instantiate t) :: f.remainder t)
  rw [List.map_cons, List.prod_cons, hremainder, ← hp.tabulated.size, (hp.share hf).1,
    Nat.mul_assoc] at haround
  exact Nat.eq_of_mul_eq_mul_left (hp.values _ hf) haround

/-- the size of the table with the values of all individuals in the place of the histograms of `f` -/
def expandedSize (p : Parfactor K) (f : CountingFormula) : Nat :=
  p.factor.size / f.rangeSize * f.inner.range.size ^ f.domainSize

/-- the individuals of `f` are being taken out of the table of `p`, which is to have `n` entries in
the end -/
structure Expanding (n : Nat) (p : Parfactor K) (f : CountingFormula) : Prop extends Dense p where
  mem : .count f ∈ p.prvs
  constant : f.excludedVars = []
  counts : 0 < f.domainSize
  size : p.expandedSize f = n

/-- the same for a formula that has somebody left, or for the end -/
def ExpandingTo (n : Nat) (p : Parfactor K) : Option CountingFormula → Prop
  | none => p.factor.size = n ∧ n ≤ Index.maxEntries
  | some f => Expanding n p f

namespace Expanding

theorem inner_pos (h : Expanding n p f) : 0 < f.inner.range.size :=
  CountingFormula.inner_pos (h.values _ h.mem) h.counts

/-- the table does not have more entries than in the end -/
theorem size_le (h : Expanding n p f) : p.factor.size ≤ n := by
  rw [(h.share h.mem).1, ← h.size, expandedSize, Nat.mul_comm]
  exact Nat.mul_le_mul_left _ (CountingFormula.rangeSize_le_pow h.inner_pos)

theorem isExpandable (h : Expanding n p f) (hc : c ∈ f.individuals) :
    p.isExpandable f (.const c) = true := isExpandable_const h.mem h.constant hc

theorem domainSize_excluding (h : Expanding n p f) (hc : c ∈ f.individuals) :
    f.domainSize = (f.excluding (.const c)).domainSize + 1 := by
  have hdomain := (expandsOn_of_isExpandable (h.isExpandable hc)).domainSize
  have hcounts := h.counts
  omega

/-- what is taken out, and the histograms of the others, have fewer values than all individuals -/
theorem prod_le (h : Expanding n p f) (hc : c ∈ f.individuals) :
    ((p.expandedPrvs f (.const c)).map Prv.rangeSize).prod ≤ n := by
  rw [h.prod_expandedPrvs h.mem, ← h.size, expandedSize, h.domainSize_excluding hc, Nat.pow_succ']
  refine Nat.mul_le_mul_left _ (Nat.mul_le_mul_left _ ?_)
  exact CountingFormula.rangeSize_le_pow (f := f.excluding (.const c)) h.inner_pos

theorem values_expandedPrvs (h : Expanding n p f) :
    ∀ v ∈ p.expandedPrvs f (.const c), 0 < v.rangeSize := by
  intro v hv
  rcases mem_expandedPrvs hv with hv | rfl | rfl
  · exact h.values v hv
  · exact h.inner_pos
  · exact CountingFormula.rangeSize_pos (f := f.excluding (.const c)) h.inner_pos

/-- **One individual taken out**: the table is on its way to as many entries as before. -/
theorem step (h : Expanding n p f) (hc : c ∈ f.individuals)
    (hq : p.expand f (.const c) = .ok q) : ExpandingTo n q
      (if 0 < (f.excluding (.const c)).domainSize then some (f.excluding (.const c)) else none) := by
  obtain ⟨-, hprvs⟩ := parts_expand (h.isExpandable hc) hq
  have htabulated : q.Tabulated := by
    obtain ⟨i, -, -, ⟨-, hr⟩ | ⟨-, hr⟩⟩ := expand_ok hq <;> exact tabulated_of_rebuild hr
  have hsize : q.factor.size
      = p.factor.size / f.rangeSize * (f.inner.range.size * (f.excluding (.const c)).rangeSize) := by
    rw [htabulated.size, sizes, hprvs, h.prod_expandedPrvs h.mem]
  have hn : p.factor.size / f.rangeSize
      * (f.inner.range.size * f.inner.range.size ^ (f.excluding (.const c)).domainSize) = n := by
    rw [← Nat.pow_succ', Nat.succ_eq_add_one, ← h.domainSize_excluding hc]
    exact h.size
  split
  · rename_i hpos
    have hmem : Prv.count (f.excluding (.const c)) ∈ q.prvs := by
      rw [hprvs, expandedPrvs, CountingFormula.remainder, if_pos hpos]
      simp
    have hvalues : ∀ v ∈ q.prvs, 0 < v.rangeSize := hprvs ▸ h.values_expandedPrvs
    have hvalue : 0 < (f.excluding (.const c)).rangeSize := hvalues _ hmem
    refine ⟨⟨htabulated, hvalues⟩, hmem, excludedVars_excluding h.constant, hpos, ?_⟩
    rw [expandedSize, hsize, ← hn, ← Nat.mul_assoc, Nat.mul_div_cancel _ hvalue, Nat.mul_assoc]
    rfl
  · rename_i hnobody
    have hzero := Nat.eq_zero_of_not_pos hnobody
    have hend : q.factor.size = n := by
      rw [hsize, ← hn, hzero, Nat.pow_zero, CountingFormula.rangeSize_of_nobody hzero]
    exact ⟨hend, hend ▸ htabulated.stored⟩

end Expanding

theorem expandAll_cons (h : p.isExpandable f (.const c) = true) (cs : List Constant) :
    Operation.expandAll p (some f) (c :: cs) = match p.expand f (.const c) with
      | .error e => .error e
      | .ok q => Operation.expandAll q (if 0 < (f.excluding (.const c)).domainSize then
          some (f.excluding (.const c)) else none) cs := by
  have hexpandable := (expandsOn_of_isExpandable h).expandable
  cases hq : p.expand f (.const c) with
  | error e => simp only [Operation.expandAll, CountingFormula.expand, if_pos hexpandable, hq]
  | ok q => simp only [Operation.expandAll, CountingFormula.expand, if_pos hexpandable, hq]

/-- whoever else is in the group stays there -/
theorem mem_individuals_rest {cs : List Constant} (hcs : (c :: cs).Nodup)
    (hall : ∀ d ∈ c :: cs, d ∈ f.individuals) : ∀ g ∈ (if 0 < (f.excluding (.const c)).domainSize then
      some (f.excluding (.const c)) else none), ∀ d ∈ cs, d ∈ g.individuals := by
  intro g hg d hd
  split at hg
  · cases hg
    have hne : Term.const c ≠ .var f.bound := nofun
    exact (CountingFormula.mem_individuals_excluding hne).mpr
      ⟨hall d (List.mem_cons_of_mem c hd), fun h =>
        (List.nodup_cons.mp hcs).1 (Term.const.inj h ▸ hd)⟩
  · cases hg

/-- **Individuals taken out one after the other**: the table has no more entries on the way than in the
end, and it has them, and memory holds them, as soon as nobody is left. -/
theorem ExpandingTo.size_expandAll {o : Option CountingFormula} {cs : List Constant}
    (h : ExpandingTo n p o) (hcs : cs.Nodup) (hall : ∀ f ∈ o, ∀ c ∈ cs, c ∈ f.individuals)
    (hq : Operation.expandAll p o cs = .ok q) : q.factor.size ≤ n
      ∧ ((∀ f ∈ o, f.domainSize ≤ cs.length) → q.factor.size = n ∧ n ≤ Index.maxEntries) := by
  induction cs generalizing p o with
  | nil =>
    cases o with
    | none =>
      cases hq
      exact ⟨h.1.le, fun _ => h⟩
    | some f =>
      cases hq
      exact ⟨h.size_le, fun hzero => absurd (h.counts.trans_le (hzero f rfl)) (Nat.lt_irrefl 0)⟩
  | cons c cs ih =>
    cases o with
    | none =>
      cases hq
      exact ⟨h.1.le, fun _ => h⟩
    | some f =>
      have hc : c ∈ f.individuals := hall f rfl c List.mem_cons_self
      rw [expandAll_cons (h.isExpandable hc)] at hq
      split at hq
      · cases hq
      · rename_i r hr
        obtain ⟨hle, hend⟩ := ih (h.step hc hr) (List.nodup_cons.mp hcs).2
          (mem_individuals_rest hcs (hall f rfl)) hq
        refine ⟨hle, fun hlength => hend fun g hg => ?_⟩
        split at hg
        · cases hg
          have hdomain := h.domainSize_excluding hc
          have hlength := hlength f rfl
          rw [List.length_cons] at hlength
          omega
        · cases hg

/-- **Expansions succeed** if memory holds the table in the end. -/
theorem ExpandingTo.exists_expandAll {o : Option CountingFormula} {cs : List Constant}
    (h : ExpandingTo n p o) (hcs : cs.Nodup) (hall : ∀ f ∈ o, ∀ c ∈ cs, c ∈ f.individuals)
    (hle : n ≤ Index.maxEntries) : ∃ q, Operation.expandAll p o cs = .ok q := by
  induction cs generalizing p o with
  | nil => cases o <;> exact ⟨p, rfl⟩
  | cons c cs ih =>
    cases o with
    | none => exact ⟨p, rfl⟩
    | some f =>
      have hc : c ∈ f.individuals := hall f rfl c List.mem_cons_self
      obtain ⟨r, hr⟩ : ∃ r, p.expand f (.const c) = .ok r := by
        rw [exists_expand_iff h.tabulated (h.isExpandable hc),
          Index.fits_iff_of_pos (prod_rangeSize_pos h.values_expandedPrvs)]
        exact (h.prod_le hc).trans hle
      rw [expandAll_cons (h.isExpandable hc), hr]
      exact ih (h.step hc hr) (List.nodup_cons.mp hcs).2 (mem_individuals_rest hcs (hall f rfl))

/-- **The estimate of a full expansion** is the number of entries in the end. -/
theorem Dense.expanding (hp : p.Dense) (hf : .count f ∈ p.prvs) (hconstant : f.excludedVars = [])
    (hcounts : 0 < f.domainSize) (hcost : Cost.fullExpansion p.factor.size f.rangeSize
      f.inner.range.size f.domainSize = .finite n) : Expanding n p f := by
  rw [Cost.fullExpansion_eq_sat] at hcost
  exact ⟨hp, hf, hconstant, hcounts, (Cost.eq_of_sat hcost).symm⟩

/-! ## products -/

theorem unionPrvs_append (ps qs rs : List Prv) :
    unionPrvs ps (qs ++ rs) = unionPrvs (unionPrvs ps qs) rs := List.foldl_append

theorem unionPrvs_of_disjoint {ps qs : List Prv} (hqs : qs.Nodup) (h : ∀ q ∈ qs, q ∉ ps) :
    unionPrvs ps qs = ps ++ qs := by
  induction qs generalizing ps with
  | nil => exact (List.append_nil ps).symm
  | cons q qs ih =>
    obtain ⟨hq, hqs⟩ := List.nodup_cons.mp hqs
    rw [unionPrvs_cons, if_neg (h q List.mem_cons_self), ih hqs fun r hr hmem => ?_,
      List.append_assoc]
    · rfl
    · rcases List.mem_append.mp hmem with hmem | hmem
      · exact h r (List.mem_cons_of_mem q hr) hmem
      · exact hq (List.mem_singleton.mp hmem ▸ hr)

/-- with more random variables there are no fewer assignments -/
theorem prod_le_unionPrvs {ps qs : List Prv} (h : ∀ q ∈ unionPrvs ps qs, 0 < q.rangeSize) :
    (ps.map Prv.rangeSize).prod ≤ ((unionPrvs ps qs).map Prv.rangeSize).prod := by
  obtain ⟨rest, heq, -⟩ := exists_unionPrvs ps qs
  rw [heq] at h ⊢
  rw [List.map_append, List.prod_append]
  exact Nat.le_mul_of_pos_right _ (prod_rangeSize_pos fun q hq => h q (List.mem_append_right ps hq))

theorem Dense.values_unionPrvs {ps : List (Parfactor K)} (hp : p.Dense)
    (hps : ∀ q ∈ ps, q.Dense) :
    ∀ v ∈ unionPrvs p.prvs (ps.flatMap Parfactor.prvs), 0 < v.rangeSize := by
  intro v hv
  rw [mem_unionPrvs, List.mem_flatMap] at hv
  rcases hv with hv | ⟨q, hq, hv⟩
  · exact hp.values v hv
  · exact (hps q hq).values v hv

section
variable [Scalar K] {t : PrvSet} {ps : List (Parfactor K)}

/-- **The product of a list** is over the union of all random variables. -/
theorem prvs_multiplyAll (h : Operation.multiplyAll p ps = .ok r) :
    r.prvs = unionPrvs p.prvs (ps.flatMap Parfactor.prvs) := by
  induction ps generalizing p with
  | nil =>
    cases h
    rfl
  | cons q ps ih =>
    obtain ⟨u, hu, h⟩ := Operation.multiplyAll_ok h
    rw [ih h, (parts_multiply hu).2, List.flatMap_cons, unionPrvs_append]

theorem Dense.multiply (hp : p.Dense) (hq : q.Dense) (h : p.multiply q = .ok r) : r.Dense := by
  refine ⟨tabulated_of_rebuild (multiply_ok h).2, fun v hv => ?_⟩
  rcases (mem_prvs_multiply h).mp hv with hv | hv
  · exact hp.values v hv
  · exact hq.values v hv

theorem Dense.multiplyAll (hp : p.Dense) (hps : ∀ q ∈ ps, q.Dense)
    (h : Operation.multiplyAll p ps = .ok r) : r.Dense := by
  induction ps generalizing p with
  | nil =>
    cases h
    exact hp
  | cons q ps ih =>
    obtain ⟨u, hu, h⟩ := Operation.multiplyAll_ok h
    exact ih (hp.multiply (hps q List.mem_cons_self) hu)
      (fun s hs => hps s (List.mem_cons_of_mem q hs)) h

theorem Dense.size_multiplyAll (hp : p.Dense) (hps : ∀ q ∈ ps, q.Dense)
    (h : Operation.multiplyAll p ps = .ok r) : r.factor.size
      = ((unionPrvs p.prvs (ps.flatMap Parfactor.prvs)).map Prv.rangeSize).prod := by
  rw [(hp.multiplyAll hps h).tabulated.size, sizes, prvs_multiplyAll h]

/-- a product of some of the parfactors has no more entries than that of all of them -/
theorem Dense.size_multiplyAll_take_le (hp : p.Dense) (hps : ∀ q ∈ ps, q.Dense) {i : Nat}
    (h : Operation.multiplyAll p (ps.take i) = .ok r) : r.factor.size
      ≤ ((unionPrvs p.prvs (ps.flatMap Parfactor.prvs)).map Prv.rangeSize).prod := by
  have hvalues := hp.values_unionPrvs hps
  rw [hp.size_multiplyAll (fun q hq => hps q (List.mem_of_mem_take hq)) h]
  rw [← List.take_append_drop i ps, List.flatMap_append, unionPrvs_append] at hvalues ⊢
  rw [List.take_append_drop]
  exact prod_le_unionPrvs hvalues

/-- **The product of parfactors over one set** is found if memory holds its table. -/
theorem exists_multiplyAll (hp : p.Dense) (hspans : Spans t p)
    (hps : ∀ q ∈ ps, q.Dense ∧ Spans t q)
    (hle : ((unionPrvs p.prvs (ps.flatMap Parfactor.prvs)).map Prv.rangeSize).prod
      ≤ Index.maxEntries) : ∃ r, Operation.multiplyAll p ps = .ok r := by
  induction ps generalizing p with
  | nil => exact ⟨p, rfl⟩
  | cons q ps ih =>
    obtain ⟨hq, hspans'⟩ := hps q List.mem_cons_self
    have hvalues := hp.values_unionPrvs fun s hs => (hps s hs).1
    rw [List.flatMap_cons, unionPrvs_append] at hle hvalues
    obtain ⟨u, hu⟩ : ∃ u, p.multiply q = .ok u := by
      rw [exists_multiply_iff hp.tabulated hq.tabulated (hspans.alongside hspans').isMultipliable,
        Index.fits_iff_of_pos (prod_rangeSize_pos fun v hv => hvalues v (mem_unionPrvs.mpr (.inl hv)))]
      exact (prod_le_unionPrvs hvalues).trans hle
    unfold Operation.multiplyAll
    rw [hu]
    refine ih (hp.multiply hq hu) (hspans.multiply hu) (fun s hs => hps s (List.mem_cons_of_mem q hs)) ?_
    rwa [(parts_multiply hu).2]

/-- without one of the random variables there are no more assignments -/
theorem Dense.size_sumOut_le (hp : p.Dense) (h : p.sumOut v = .ok r) :
    r.factor.size ≤ p.factor.size := by
  obtain ⟨i, hi, herase, -, hr⟩ := sumOut_ok h
  rw [(size_rebuild hr).1, herase, ← List.eraseIdx_map, hp.tabulated.size,
    ← prod_eraseIdx (getElem?_sizes hi)]
  exact Nat.le_mul_of_pos_left _ (hp.values v (List.mem_of_getElem? hi))

end

end Parfactor

end LiftedElimination
