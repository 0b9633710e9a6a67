import LiftedElimination.Proofs.Repeats
import LiftedElimination.Proofs.Inherited

/-!
# The size limit

The engine compares the cost of an elimination, a counting, an expansion and a grounding with the
limit.  The table that such an operation builds has at most that many entries.  The comparison leaves
out what conversions and refinements build, those of the shattering that follows an expansion or a
grounding included: a conversion builds a table of histograms, and a refinement that expands a
counting formula may enlarge its table.  With these tables within the limit, too, no step of the
engine leaves a larger one.

* `Cost.exists_of_le`, `Cost.mul_eq_finite`   what a finite cost says;
* `size_count_le`, `size_expandAll_le`, `size_eliminated_le`   the costs of the operations;
* `Component.refinedSize`, `Marginal.refinedSize`   the tables of refinements;
* `Operation.hiddenSize`   the tables that the cost of an operation leaves out;
* `Operation.within_run`, `Engine.size_le_limit`   one operation, and a whole run.
-/

namespace LiftedElimination

open Finset

/-! ## costs -/

namespace Cost

variable {c : Cost} {a n : Nat}

theorem exists_of_le (h : c.le (finite n) = true) : ∃ m ≤ n, c = finite m := by
  cases c with
  | finite m => exact ⟨m, Nat.isLE_compare.mp h, rfl⟩
  | infinite => cases h

theorem mul_eq_finite (ha : 0 < a) (h : (finite a).mul c = finite n) :
    ∃ b, c = finite b ∧ n = a * b := by
  cases c with
  | finite b => exact ⟨b, rfl, eq_of_sat (mul_finite a b ▸ h)⟩
  | infinite =>
    obtain ⟨a, rfl⟩ := Nat.exists_eq_succ_of_ne_zero ha.ne'
    cases h

end Cost

variable {K : Type}

/-! ## the costs of the operations -/

/-- the constraints on `x` are all that matters where the others give nothing -/
theorem ConstraintSet.filterMap_onVariable {β : Type} {cs : ConstraintSet} {x : LogVar}
    {g : Constraint → Option β} (hg : ∀ c : Constraint, c.mentions x = false → g c = none) :
    (cs.onVariable x).toList.filterMap g = cs.toList.filterMap g := by
  show (cs.toList.filter fun c => c.mentions x).filterMap g = _
  rw [List.filterMap_filter]
  refine List.filterMap_congr fun c _ => ?_
  split
  · rfl
  · rename_i hc
    exact (hg c (Bool.eq_false_of_not_eq_true hc)).symm

theorem CountingFormula.rangeSize_of_histogramCount {f : CountingFormula} {n : Nat}
    (h : Cost.histogramCount f.domainSize f.inner.range.size = .finite n) :
    f.rangeSize = min n maxWord := by
  unfold rangeSize
  rw [h]

namespace Parfactor

variable {p q r : Parfactor K} {f : CountingFormula} {x : LogVar} {i n : Nat} {a : Atom}

theorem domainSize_onVariable (p : Parfactor K) (x : LogVar) (a : Atom) :
    CountingFormula.domainSize ⟨x, a, p.constraints.onVariable x⟩
      = (x.domain p.constraints).size - (p.neighbours x).length := by
  have hother : ∀ c : Constraint, c.mentions x = false → c.other? x = none := by
    intro c hc
    rw [Constraint.mentions, Bool.or_eq_false_iff, beq_eq_false_iff_ne, beq_eq_false_iff_ne] at hc
    rw [Constraint.other?, if_neg hc.1, if_neg hc.2]
  have hdomain : x.domain (p.constraints.onVariable x) = x.domain p.constraints := by
    unfold LogVar.domain
    rw [ConstraintSet.filterMap_onVariable fun c hc => by
      rw [Constraint.excluded?_eq, hother c hc]; rfl]
  rw [CountingFormula.domainSize, CountingFormula.excludedVars_eq,
    ConstraintSet.filterMap_onVariable fun c hc => by
      rw [Constraint.otherVar?_eq, hother c hc]; rfl]
  exact congrArg (fun d : Population => d.size - _) hdomain

theorem Counts.eq_of_holder {j : Nat} {s : Prv} (h : Counts p x i a)
    (hs : p.holder? x = some (j, s)) : s = .atom a := by
  obtain ⟨hj, hx⟩ := holder?_eq_some hs
  by_cases hji : j = i
  · exact Option.some.inj (hj.symm.trans (hji ▸ h.holder))
  · exact absurd (of_decide_eq_true hx)
      (h.sole s (List.mem_eraseIdx_iff_getElem?.mpr ⟨j, hji, hj⟩))

/-- a table that covers the assignments has a share for the others of each value -/
theorem Covers.exists_share {s : Prv} (h : p.Covers) (hp : ∀ r ∈ p.prvs, r.HasValues)
    (hi : p.prvs[i]? = some s) : ∃ m, 0 < m ∧ p.sizes.prod = s.rangeSize * m
      ∧ m ≤ p.factor.size / s.rangeSize := by
  have hprod := prod_eraseIdx (getElem?_sizes hi)
  refine ⟨(p.sizes.eraseIdx i).prod, List.prod_pos fun n hn => ?_, hprod.symm, ?_⟩
  · obtain ⟨r, hr, rfl⟩ := List.mem_map.mp (List.mem_of_mem_eraseIdx hn)
    exact (hp r hr).rangeSize_pos
  · rw [Nat.le_div_iff_mul_le (hp s (List.mem_of_getElem? hi)).rangeSize_pos, Nat.mul_comm, hprod]
    exact h

/-- nothing is listed twice -/
theorem nodup_unionPrvs {ps : List Prv} (h : ps.Nodup) (qs : List Prv) :
    (unionPrvs ps qs).Nodup := by
  induction qs generalizing ps with
  | nil => exact h
  | cons q qs ih =>
    rw [unionPrvs_cons]
    split
    · exact ih h
    · rename_i hq
      exact ih (List.nodup_append.mpr ⟨h, List.nodup_singleton q, fun a ha b hb => by
        rintro rfl
        exact hq (List.mem_singleton.mp hb ▸ ha)⟩)

variable [Scalar K]

/-- **Counting builds a table of the size of its cost at most.** -/
theorem size_count_le (hp : ∀ r ∈ p.prvs, r.HasValues) (h : p.count x = .ok r)
    (hcost : Operation.countCost p x = .finite n) : r.factor.size ≤ n := by
  obtain ⟨i, a, hcounts, hmul⟩ := size_count_mul h
  have ha : 0 < a.range.size := hp _ (List.mem_of_getElem? hcounts.holder)
  obtain ⟨m, hm, hprod, hshare⟩ := (covers_count hp h).exists_share hp hcounts.holder
  unfold Operation.countCost at hcost
  cases hh : p.holder? x with
  | none =>
    rw [hh] at hcost
    cases hcost
  | some s =>
    obtain ⟨j, s⟩ := s
    obtain rfl := hcounts.eq_of_holder hh
    rw [hh] at hcost
    dsimp only at hcost
    rw [show max (Prv.atom a).rangeSize 1 = a.range.size from max_eq_left ha,
      ← domainSize_onVariable p x a] at hcost
    obtain ⟨k, hk, rfl⟩ := Cost.mul_eq_finite (hm.trans_le hshare) hcost
    have hrange : CountingFormula.rangeSize ⟨x, a, p.constraints.onVariable x⟩ ≤ k :=
      (CountingFormula.rangeSize_of_histogramCount hk).trans_le (Nat.min_le_left k maxWord)
    have hsize : r.factor.size = m * CountingFormula.rangeSize ⟨x, a, p.constraints.onVariable x⟩ :=
      Nat.eq_of_mul_eq_mul_left ha (by rw [hmul, hprod, ← Nat.mul_assoc]; rfl)
    exact hsize.trans_le (Nat.mul_le_mul hshare hrange)

/-- the table of an expansion on everybody has the values of all individuals for each histogram of
the group -/
theorem size_expandAll_mul (hp : ∀ r ∈ p.prvs, r.HasValues) {cs : List Constant}
    (hcs : cs.length = f.domainSize) (hpos : 0 < f.domainSize)
    (h : Operation.expandAll p (some f) cs = .ok q) : p.Covers ∧ .count f ∈ p.prvs
      ∧ f.rangeSize * q.factor.size = p.sizes.prod * f.inner.range.size ^ f.domainSize := by
  induction cs generalizing p f with
  | nil => exact absurd hcs.symm hpos.ne'
  | cons c cs ih =>
    obtain ⟨r, hr, -, h⟩ := Operation.expandAll_ok h
    obtain ⟨i, hi, hon, hcases⟩ := expand_ok hr
    have hmul := size_expand_mul hr
    refine ⟨covers_expand hp hr, List.mem_of_getElem? hi, ?_⟩
    have hsucc : f.domainSize = (f.excluding (.const c)).domainSize + 1 := by
      rw [hon.domainSize, Nat.sub_add_cancel hpos]
    have hdomain : cs.length = (f.excluding (.const c)).domainSize :=
      Nat.succ.inj (hcs.trans hsucc)
    rcases Nat.eq_zero_or_pos (f.excluding (.const c)).domainSize with hzero | hothers
    · rw [if_neg (Nat.not_lt.mpr hzero.le)] at h
      have hqr : q = r := by
        cases cs <;> exact (Except.ok.inj h).symm
      rw [hqr, hmul, CountingFormula.rangeSize_of_nobody hzero, hsucc, hzero, Nat.mul_one]
      exact congrArg _ (Nat.pow_one _).symm
    · rw [if_pos hothers] at h
      have hvalues : ∀ s ∈ r.prvs, s.HasValues :=
        (hereditary_hasValues.expand (p := p) ⟨trivial, hp⟩ hr).prvs
      obtain ⟨-, hmem, hrest⟩ := ih hvalues hdomain hothers h
      have hsize : r.factor.size = r.sizes.prod := by
        rcases hcases with ⟨-, hq⟩ | ⟨-, hq⟩ <;> exact (size_eq_of_rebuild hq).1
      rw [← hsize] at hrest
      refine Nat.eq_of_mul_eq_mul_left (hvalues _ hmem).rangeSize_pos ?_
      calc (f.excluding (.const c)).rangeSize * (f.rangeSize * q.factor.size)
          = f.rangeSize * ((f.excluding (.const c)).rangeSize * q.factor.size) :=
            Nat.mul_left_comm _ _ _
        _ = f.rangeSize * r.factor.size
            * f.inner.range.size ^ (f.excluding (.const c)).domainSize := by
            rw [hrest, Nat.mul_assoc]
            rfl
        _ = (f.excluding (.const c)).rangeSize
            * (p.sizes.prod * f.inner.range.size ^ f.domainSize) := by
            rw [hmul, hsucc, Nat.pow_succ]
            ring

/-- an expansion builds a table of the size that the old one says at most -/
theorem size_expand_le {t : Term} (hp : ∀ r ∈ p.prvs, r.HasValues) (h : p.expand f t = .ok q) :
    q.factor.size
      ≤ p.factor.size / f.rangeSize * (f.inner.range.size * (f.excluding t).rangeSize) := by
  obtain ⟨i, hi, -, -⟩ := expand_ok h
  obtain ⟨m, -, hprod, hshare⟩ := (covers_expand hp h).exists_share hp hi
  have hsize : q.factor.size = m * (f.inner.range.size * (f.excluding t).rangeSize) :=
    Nat.eq_of_mul_eq_mul_left (hp _ (List.mem_of_getElem? hi)).rangeSize_pos (by
      rw [← Nat.mul_assoc _ m, ← hprod]
      exact size_expand_mul h)
  exact hsize.trans_le (Nat.mul_le_mul_right _ hshare)

/-- **Expansion on everybody builds a table of the size of its cost at most.** -/
theorem size_expandAll_le (hp : ∀ r ∈ p.prvs, r.HasValues) {cs : List Constant}
    (hcs : cs.length = f.domainSize) (hpos : 0 < f.domainSize)
    (h : Operation.expandAll p (some f) cs = .ok q)
    (hcost : Cost.fullExpansion p.factor.size f.rangeSize f.inner.range.size f.domainSize
      = .finite n) : q.factor.size ≤ n := by
  obtain ⟨hcovers, hmem, hmul⟩ := size_expandAll_mul hp hcs hpos h
  obtain ⟨i, hi⟩ := List.mem_iff_getElem?.mp hmem
  obtain ⟨m, -, hprod, hshare⟩ := hcovers.exists_share hp hi
  rw [Cost.fullExpansion_eq_sat] at hcost
  have hsize : q.factor.size = m * f.inner.range.size ^ f.domainSize :=
    Nat.eq_of_mul_eq_mul_left (hp _ hmem).rangeSize_pos (by rw [← Nat.mul_assoc, ← hprod]; exact hmul)
  rw [hsize, Cost.eq_of_sat hcost]
  exact Nat.mul_le_mul_right _ hshare

/-- **An elimination leaves a table of the size of its cost at most.** -/
theorem size_eliminated_le {ps : List (Parfactor K)} {product summed : Parfactor K} {s : Prv}
    (hps : ∀ q ∈ p :: ps, ∀ r ∈ q.prvs, r.HasValues)
    (hproduct : Operation.multiplyAll p ps = .ok product) (hsummed : product.sumOut s = .ok summed)
    (hq : summed.normalize = .ok (some q))
    (hcost : Cost.prod ((unionPrvs [] ((p :: ps).flatMap Parfactor.prvs)).map Prv.rangeSize)
      = .finite n) : q.factor.size ≤ n := by
  obtain ⟨i, hi, -, -, hr⟩ := sumOut_ok hsummed
  have hsub : ∀ r ∈ summed.prvs, r ∈ (p :: ps).flatMap Parfactor.prvs := by
    intro r hr
    rw [(parts_sumOut hsummed).2] at hr
    exact List.mem_flatMap.mpr ((parts_multiplyAll hproduct).2.1 r (List.mem_of_mem_erase hr))
  have hvalues : ∀ r ∈ (p :: ps).flatMap Parfactor.prvs, r.HasValues := fun r hr => by
    obtain ⟨q, hq, hrq⟩ := List.mem_flatMap.mp hr
    exact hps q hq r hrq
  obtain ⟨hsize, hle⟩ := size_eq_of_rebuild hr
  have hunion : ((unionPrvs [] ((p :: ps).flatMap Parfactor.prvs)).map Prv.rangeSize).prod
      = ∏ r ∈ (unionPrvs [] ((p :: ps).flatMap Parfactor.prvs)).toFinset, r.rangeSize :=
    (List.prod_toFinset _ (nodup_unionPrvs List.nodup_nil _)).symm
  rw [Cost.prod_eq_sat, hunion] at hcost
  rw [Cost.eq_of_sat hcost]
  refine (size_normalize_le_distinct (fun r hr => hvalues r (hsub r hr)) hsize hle hq).trans
    (prod_le_prod_of_subset_of_one_le' (fun r hr => ?_) fun r hr _ => ?_)
  · exact List.mem_toFinset.mpr (mem_unionPrvs.mpr (.inr (hsub r (List.mem_toFinset.mp hr))))
  · rcases mem_unionPrvs.mp (List.mem_toFinset.mp hr) with h | h
    · cases h
    · exact (hvalues r h).rangeSize_pos

end Parfactor

/-! ## the tables that costs leave out -/

/-- the size of the table of histograms that a conversion builds -/
def Aggregation.convertedSize (a : Aggregation K) : Nat :=
  CountingFormula.rangeSize ⟨a.extra, a.parent, a.constraintsOnExtra⟩ * a.child.range.size

/-- the size of the largest table that a refinement of the component builds -/
def Component.refinedSize : Component K → Action → Nat
  | .standard p, .expand f t =>
    p.factor.size / f.rangeSize * (f.inner.range.size * (f.excluding t).rangeSize)
  | .aggregation a, .convert => a.convertedSize
  | c, _ => c.factor.size

section
variable [Scalar K]

/-- the size of the largest table that up to `n` refinements of the list build -/
def refinedSize (kept : List PrvSet) : Nat → List (Component K) → Nat
  | 0, _ => 0
  | n + 1, cs =>
    match nextAction cs kept, refineRound kept cs with
    | .ok (some (i, a)), .ok (some ds) =>
      max ((cs[i]?.map fun c => c.refinedSize a).getD 0) (refinedSize kept n ds)
    | _, _ => 0

/-- the size of the largest table that a refinement builds while the marginal is shattered -/
def Marginal.refinedSize (m : Marginal K) : Nat :=
  match m.normalized with
  | .ok cs => LiftedElimination.refinedSize m.kept (refinementBound cs) cs
  | .error _ => 0

namespace Operation

/-- an expansion before the marginal is shattered again -/
def expandOnly (m : Marginal K) (p : Parfactor K) (f : CountingFormula) :
    Except Error (Marginal K) := do
  let expanded ← expandAll p (some f) f.individuals.individuals
  let d ← remove m.distribution (.standard p)
  let cs ← normalForms [expanded]
  return m.withDistribution (d.addAll cs)

theorem runExpand_eq (m : Marginal K) (p : Parfactor K) (f : CountingFormula) :
    runExpand m p f = expandOnly m p f >>= Marginal.shatter := by
  simp only [runExpand, expandOnly, bind_assoc, pure_bind]

/-- a grounding before the marginal is shattered again -/
def groundOnly (m : Marginal K) (p : Parfactor K) (x : LogVar) : Except Error (Marginal K) := do
  let pieces ← groundAll x (some p) (x.domain p.constraints).individuals
  let d ← remove m.distribution (.standard p)
  return m.withDistribution (d.addAll (pieces.map .standard))

theorem runGround_eq (m : Marginal K) (p : Parfactor K) (x : LogVar) :
    runGround m p x = groundOnly m p x >>= Marginal.shatter := by
  simp only [runGround, groundOnly, bind_assoc, pure_bind]

/-- the size of the largest table that the operation builds and that its cost leaves out -/
def hiddenSize (m : Marginal K) : Operation K → Nat
  | convert a => a.convertedSize
  | shatter => m.refinedSize
  | count _ _ => 0
  | sumOut _ => 0
  | expand p f => ((expandOnly m p f).toOption.map Marginal.refinedSize).getD 0
  | ground p x => ((groundOnly m p x).toOption.map Marginal.refinedSize).getD 0

end Operation

end

/-! ## refinements -/

/-- the random variables of the component have values, and its table is within the limit -/
structure Component.Within (L : Nat) (c : Component K) : Prop where
  values : c.HasValues
  size : c.factor.size ≤ L

/-- a conversion builds the table of the weights and that of the histograms -/
theorem Aggregation.size_toParfactors_le [Scalar K] {a : Aggregation K} {L : Nat}
    (ha : a.factor.size ≤ L) (hconverted : a.convertedSize ≤ L) {ps : List (Parfactor K)}
    (h : a.toParfactors = .ok ps) : ∀ p ∈ ps, p.factor.size ≤ L := by
  obtain ⟨weighed, f, aggregate, rfl, hweighed, hf, haggregate⟩ := toParfactors_ok h
  obtain ⟨rfl, -, -⟩ := CountingFormula.make_ok hf
  intro p hp
  rcases List.mem_append.mp hp with hp | hp
  · rcases hweighed with ⟨-, rfl⟩ | ⟨q, hq, rfl⟩
    · cases hp
    · obtain rfl := List.mem_singleton.mp hp
      rw [(Parfactor.make_ok hq).2 _ rfl]
      exact ha
  · obtain rfl := List.mem_singleton.mp hp
    rw [Index.volumeFrom?_ok (Parfactor.make_ok haggregate).1.size, Nat.one_mul]
    exact (congrArg _ (Nat.mul_one _)).trans_le hconverted

namespace Component

variable {c d : Component K} {p q : Parfactor K} {a : Aggregation K} {L : Nat}

theorem Within.prvs (h : (standard p).Within L) : ∀ r ∈ p.prvs, r.HasValues := h.values.prvs

variable [Scalar K]

theorem Within.squared (h : c.Within L) : c.squared.Within L where
  values := h.values.squared
  size := by
    cases c <;> exact (Array.size_map ..).trans_le h.size

theorem Within.normalize (h : c.Within L) (hd : c.normalize = .ok (some d)) : d.Within L where
  values := hereditary_hasValues.normalize h.values hd
  size := by
    cases c with
    | standard p =>
      obtain ⟨o, ho, hod⟩ := map_ok hd
      obtain ⟨q, rfl, rfl⟩ := Option.map_eq_some_iff.mp hod
      exact (Parfactor.size_normalize_le h.prvs ho).trans h.size
    | aggregation a =>
      obtain ⟨o, ho, hod⟩ := map_ok hd
      obtain ⟨b, rfl, rfl⟩ := Option.map_eq_some_iff.mp hod
      exact (congrArg Factor.size (Aggregation.factor_normalize ho)).trans_le h.size

/-- **Refinements** stay within the limit where their sizes do. -/
theorem Within.pieces (h : c.Within L) {b : Action} (hb : c.refinedSize b ≤ L)
    {l : List (Component K)} (hl : c.pieces b = .ok l) : ∀ d ∈ l, d.Within L := by
  have hvalues := hereditary_hasValues.pieces h.values (pieces_ok hl)
  refine fun d hd => ⟨hvalues d hd, ?_⟩
  clear hvalues
  cases b with
  | split b =>
    obtain ⟨_, hs, rfl⟩ := map_ok hl
    cases c with
    | standard p =>
      obtain ⟨s, hsplit, rfl⟩ := map_ok hs
      obtain ⟨-, hfragment, hresidual⟩ := Parfactor.split_ok hsplit
      obtain ⟨cs, -, hfragment⟩ := Parfactor.apply_eq_some hfragment
      simp only [List.mem_cons, List.not_mem_nil, or_false] at hd
      rcases hd with rfl | rfl
      · rw [hfragment]
        exact h.size
      · rw [hresidual]
        exact h.size
    | aggregation a =>
      obtain ⟨s, hsplit, rfl⟩ := map_ok hs
      obtain ⟨-, hfragment, hresidual⟩ := Aggregation.split_ok hsplit
      obtain ⟨cs, -, hfragment⟩ := Aggregation.apply_eq_some hfragment
      simp only [List.mem_cons, List.not_mem_nil, or_false] at hd
      rcases hd with rfl | rfl
      · rw [hfragment]
        exact h.size
      · rw [hresidual]
        exact h.size
  | expand f t =>
    cases c with
    | standard p =>
      obtain ⟨q, hq, rfl⟩ := map_ok hl
      obtain rfl := List.mem_singleton.mp hd
      exact (Parfactor.size_expand_le h.prvs hq).trans hb
    | aggregation a => cases hl
  | convert =>
    cases c with
    | standard p => cases hl
    | aggregation a =>
      obtain ⟨ps, hps, rfl⟩ := map_ok hl
      obtain ⟨p, hp, rfl⟩ := List.mem_map.mp hd
      exact Aggregation.size_toParfactors_le h.size hb hps p hp

theorem Within.perform (h : c.Within L) {b : Action} (hb : c.refinedSize b ≤ L)
    {l : List (Component K)} (hl : c.perform b = .ok l) : ∀ d ∈ l, d.Within L := by
  obtain ⟨pieces, normal, hp, hn, rfl⟩ := perform_ok hl
  intro d hd
  obtain ⟨p, hpmem, hpd⟩ := mem_of_normalized hn hd
  exact (h.pieces hb hp p hpmem).normalize hpd

end Component

section
variable [Scalar K] {L n : Nat} {kept : List PrvSet} {cs ds : List (Component K)}
  {m m' : Marginal K}

/-- **A run of refinements** stays within the limit where all its sizes do. -/
theorem within_settle (hcs : ∀ c ∈ cs, c.Within L) (hn : refinedSize kept n cs ≤ L)
    (h : settle (refineRound kept) n cs = .ok ds) : ∀ c ∈ ds, c.Within L := by
  induction n generalizing cs with
  | zero =>
    unfold settle at h
    split at h
    · cases h
    · cases h
      exact hcs
    · cases h
  | succ n ih =>
    unfold settle at h
    split at h
    · cases h
    · cases h
      exact hcs
    · rename_i es hes
      obtain ⟨i, c, a, pieces, hnext, hc, hpieces, rfl⟩ := refineRound_ok hes
      rw [refinedSize, hnext, hes] at hn
      dsimp only at hn
      rw [hc] at hn
      obtain ⟨hsize, hrest⟩ := max_le_iff.mp hn
      refine ih (forall_mem_foldl_pushFolded (fun _ hd => hd.squared)
        ((hcs c (List.mem_of_getElem? hc)).perform hsize hpieces)
        fun d hd => hcs d (List.mem_of_mem_eraseIdx hd)) hrest h

theorem Marginal.within_shatter (hm : ∀ c ∈ m.distribution.toList, c.Within L)
    (hsize : m.refinedSize ≤ L) (h : m.shatter = .ok m') :
    ∀ c ∈ m'.distribution.toList, c.Within L := by
  obtain ⟨cs, hcs, h⟩ := bind_ok h
  obtain ⟨ds, hds, h⟩ := bind_ok h
  cases h
  unfold refinedSize at hsize
  rw [hcs] at hsize
  obtain ⟨normal, hn, hcs⟩ := bind_ok hcs
  cases hcs
  have hnormal : ∀ d ∈ normal.filterMap id, d.Within L := fun d hd => by
    obtain ⟨c, hc, hcd⟩ := Component.mem_of_normalized (collect_ok hn) hd
    exact (hm c hc).normalize hcd
  exact Distribution.forall_mem_ofList (fun _ hc => hc.squared)
    (within_settle (forall_mem_foldl_pushFolded (fun _ hd => hd.squared) hnormal
      fun d hd => absurd hd List.not_mem_nil) hsize hds)

/-! ## operations -/

namespace Operation

variable {op : Operation K} {c : Component K} {d : Distribution K} {l : List (Component K)}
  {ps : List (Parfactor K)}

theorem within_replace (hm : ∀ c ∈ m.distribution.toList, c.Within L) (hl : ∀ c ∈ l, c.Within L)
    (hd : remove m.distribution c = .ok d) : ∀ c ∈ (d.addAll l).toList, c.Within L := by
  obtain rfl := remove_ok hd
  exact Distribution.forall_mem_addAll (fun _ hc => hc.squared) hl _
    fun c hc => hm c (List.mem_filter.mp hc).1

theorem within_normalForms (hps : ∀ p ∈ ps, (Component.standard p).Within L)
    (h : normalForms ps = .ok l) : ∀ c ∈ l, c.Within L := by
  intro c hc
  obtain ⟨p, hp, hpc⟩ := Parfactor.mem_of_normalForms h hc
  exact (hps p hp).normalize hpc

section
variable {p : Parfactor K} {f : CountingFormula} {x : LogVar} {a : Aggregation K}
  {e : SetElimination K}

theorem within_runConvert (hm : ∀ c ∈ m.distribution.toList, c.Within L)
    (ha : .aggregation a ∈ m.distribution.toList) (hsize : a.convertedSize ≤ L)
    (h : runConvert m a = .ok m') : ∀ c ∈ m'.distribution.toList, c.Within L := by
  obtain ⟨d, ps, l, hd, hps, hl, rfl⟩ := runConvert_ok h
  have ha := hm _ ha
  refine within_replace hm (within_normalForms (fun p hp => ⟨?_, ?_⟩) hl) hd
  · exact hereditary_hasValues.toParfactors ha.values hps p hp
  · exact Aggregation.size_toParfactors_le ha.size hsize hps p hp

theorem within_runCount (hm : ∀ c ∈ m.distribution.toList, c.Within L)
    (hp : .standard p ∈ m.distribution.toList) (hcost : countCost p x = .finite n) (hn : n ≤ L)
    (h : runCount m p x = .ok m') : ∀ c ∈ m'.distribution.toList, c.Within L := by
  obtain ⟨counted, d, l, hcounted, hd, hl, rfl⟩ := runCount_ok h
  have hp := hm _ hp
  refine within_replace hm (within_normalForms (fun q hq => ?_) hl) hd
  obtain rfl := List.mem_singleton.mp hq
  exact ⟨hereditary_hasValues.count hp.values hcounted,
    (Parfactor.size_count_le hp.prvs hcounted hcost).trans hn⟩

/-- the estimate is that of the product, but the table that is left has lost a random variable -/
theorem within_runSumOut (hm : ∀ c ∈ m.distribution.toList, c.Within L)
    (he : (sumOut e).Eligible m) (hcost : sumOutCost e = .finite n) (hn : n ≤ L)
    (h : runSumOut m e = .ok m') : ∀ c ∈ m'.distribution.toList, c.Within L := by
  obtain ⟨p, ps, product, summed, d, l, haligned, hproduct, hsummed, hd, hl, rfl⟩ := runSumOut_ok h
  have hvalues := hereditary_hasValues.aligned (fun c hc => (hm c hc).values) he
  rw [haligned] at hvalues
  have hsum := hereditary_hasValues.closed.sumOut (hereditary_hasValues.closed.multiplyAll
    (hvalues p List.mem_cons_self) (fun q hq => hvalues q (List.mem_cons_of_mem _ hq)) hproduct)
    hsummed
  refine Distribution.forall_mem_addAll (fun _ hc => hc.squared) (fun c hc => ?_) d
    fun c hc => hm c (mem_of_mem_removeAll hd c hc)
  obtain ⟨q, hq, hqc⟩ := Parfactor.mem_of_normalForms hl hc
  obtain rfl := List.mem_singleton.mp hq
  refine ⟨hereditary_hasValues.normalize hsum hqc, ?_⟩
  obtain ⟨o, ho, hoc⟩ := map_ok hqc
  obtain ⟨r, rfl, rfl⟩ := Option.map_eq_some_iff.mp hoc
  rw [sumOutCost, haligned] at hcost
  exact (Parfactor.size_eliminated_le (fun q hq => (hvalues q hq).prvs) hproduct hsummed ho
    hcost).trans hn

theorem within_expandOnly (hm : ∀ c ∈ m.distribution.toList, c.Within L)
    (hop : (expand p f).Eligible m) (hcost : (expand p f).cost = .finite n) (hn : n ≤ L)
    (h : expandOnly m p f = .ok m') : ∀ c ∈ m'.distribution.toList, c.Within L := by
  obtain ⟨expanded, hexpanded, h⟩ := bind_ok h
  obtain ⟨d, hd, h⟩ := bind_ok h
  obtain ⟨l, hl, h⟩ := bind_ok h
  cases h
  obtain ⟨hmem, -, hvars, hpos⟩ := hop
  have hp := hm _ hmem
  have hcs : f.individuals.individuals.length = f.domainSize := by
    rw [CountingFormula.domainSize, hvars]
    rfl
  refine within_replace hm (within_normalForms (fun q hq => ?_) hl) hd
  obtain rfl := List.mem_singleton.mp hq
  exact ⟨hereditary_hasValues.closed.expandAll hp.values hexpanded,
    (Parfactor.size_expandAll_le hp.prvs hcs hpos hexpanded hcost).trans hn⟩

theorem within_groundOnly (hm : ∀ c ∈ m.distribution.toList, c.Within L)
    (hp : .standard p ∈ m.distribution.toList) (h : groundOnly m p x = .ok m') :
    ∀ c ∈ m'.distribution.toList, c.Within L := by
  obtain ⟨pieces, hpieces, h⟩ := bind_ok h
  obtain ⟨d, hd, h⟩ := bind_ok h
  cases h
  refine within_replace hm (fun c hc => ?_) hd
  obtain ⟨q, hq, rfl⟩ := List.mem_map.mp hc
  refine forall_groundAll (P := fun p => (Component.standard p).Within L)
    (fun r b s hr hs => ?_) (fun r t hr ht => hr.normalize (by rw [Component.normalize, ht]; rfl))
    (fun q hq => Option.some.inj hq ▸ hm _ hp) hpieces q hq
  have hparts : (Component.standard r).pieces (.split b)
      = .ok [.standard s.fragment, .standard s.residual] := by
    rw [Component.pieces, Component.split, hs]
    rfl
  have hall := hr.pieces (b := .split b) hr.size hparts
  exact ⟨hall _ (by simp), hall _ (by simp)⟩

end

/-- **Every operation** whose cost and hidden tables are within the limit leaves tables within it. -/
theorem within_run (hm : ∀ c ∈ m.distribution.toList, c.Within L) (hop : op.Eligible m)
    (hcost : op.cost.le (.finite L) = true) (hhidden : op.hiddenSize m ≤ L)
    (hrun : op.run m = .ok m') : ∀ c ∈ m'.distribution.toList, c.Within L := by
  obtain ⟨n, hn, hcost⟩ := Cost.exists_of_le hcost
  cases op with
  | convert a => exact within_runConvert hm hop hhidden hrun
  | shatter => exact Marginal.within_shatter hm hhidden hrun
  | count p x => exact within_runCount hm hop.1 hcost hn hrun
  | sumOut e => exact within_runSumOut hm hop hcost hn hrun
  | expand p f =>
    obtain ⟨s, hs, hshatter⟩ := bind_ok ((runExpand_eq m p f).symm.trans hrun)
    rw [hiddenSize, hs] at hhidden
    exact Marginal.within_shatter (within_expandOnly hm hop hcost hn hs) hhidden hshatter
  | ground p x =>
    obtain ⟨s, hs, hshatter⟩ := bind_ok ((runGround_eq m p x).symm.trans hrun)
    rw [hiddenSize, hs] at hhidden
    exact Marginal.within_shatter (within_groundOnly hm hop.1 hs) hhidden hshatter

end Operation

end

/-! ## runs -/

namespace Engine

variable [Scalar K] {m : Marginal K} {c : EngineConfig} {op : Operation K}

theorem admits_zero (c : EngineConfig) : c.admits .zero = true := by
  unfold EngineConfig.admits
  split
  · rfl
  · rename_i limit _
    cases limit with
    | finite n => exact Nat.isLE_compare.mpr (Nat.zero_le n)
    | infinite => rfl

/-- the chosen operation has been compared with the limit -/
theorem admits_of_choose (h : (choose c m).outcome = .ok (some op)) : c.admits op.cost = true := by
  unfold choose at h
  split at h
  · cases h
  · split at h
    · rename_i hconverts
      cases h
      obtain ⟨a, -, rfl⟩ := List.mem_map.mp (hconverts ▸ List.mem_cons_self : op ∈ Operation.converts m)
      exact admits_zero c
    · split at h
      · cases h
      · cases h
        exact admits_zero c
      · unfold chooseCandidate at h
        dsimp only at h
        split at h
        · rename_i b hb
          cases h
          exact List.of_mem_filter (p := fun op : Operation K => c.admits op.cost)
            (List.partition_eq_filter_filter .. ▸ cheapest?_mem hb)
        · split at h
          · rename_i b hb
            cases h
            exact List.of_mem_filter (p := fun op : Operation K => c.admits op.cost)
              (List.partition_eq_filter_filter .. ▸ cheapest?_mem hb)
          · split at h <;> cases h

/-- the configuration does not change -/
theorem config_of_steps {es : Nat → Engine K} {n : Nat}
    (hsteps : ∀ i < n, ∃ kind cost, (es i).step = (.ok (.applied kind cost), es (i + 1))) :
    ∀ i ≤ n, (es i).config = (es 0).config := by
  intro i hi
  induction i with
  | zero => rfl
  | succ i ih =>
    obtain ⟨kind, cost, hstep⟩ := hsteps i (by omega)
    exact (steps_of_step hstep).1.trans (ih (by omega))

/-- **The size limit.**  If the tables of the marginal are within the limit, and those that
conversions and refinements build on the way, too, whose sizes the costs leave out, then all tables
after every step are within the limit. -/
theorem size_le_limit {es : Nat → Engine K} {n L : Nat}
    (hlimit : (es 0).config.maxFactorSize = some (.finite L))
    (hvalues : ∀ c ∈ (es 0).marginal.distribution.toList, c.HasValues)
    (hsize : ∀ c ∈ (es 0).marginal.distribution.toList, c.factor.size ≤ L)
    (hsteps : ∀ i < n, ∃ kind cost, (es i).step = (.ok (.applied kind cost), es (i + 1)))
    (hhidden : ∀ i < n, ∀ op, (choose (es i).config (es i).marginal).outcome = .ok (some op) →
      op.hiddenSize (es i).marginal ≤ L) :
    ∀ i ≤ n, ∀ c ∈ (es i).marginal.distribution.toList, c.factor.size ≤ L := by
  intro i hi c hc
  refine (forall_of_steps (I := fun m => ∀ c ∈ m.distribution.toList, c.Within L)
    (fun c hc => ⟨hvalues c hc, hsize c hc⟩) hsteps (fun i hi op m hop heligible hrun hm => ?_)
    i hi c hc).size
  have hadmits := admits_of_choose hop
  rw [EngineConfig.admits, config_of_steps hsteps i hi.le, hlimit] at hadmits
  exact Operation.within_run hm heligible hadmits (hhidden i hi op hop) hrun

end Engine

/-! ## the counted epidemic -/

open scoped ExactScalar

namespace Epidemic

/-- the conversion, the expansion and all shattering stay within the standard limit -/
theorem engine_hiddenSize_le {i : Nat} (hi : i < 7) {op : Operation Nat}
    (hop : (Engine.choose (engine i).config (engine i).marginal).outcome = .ok (some op)) :
    op.hiddenSize (engine i).marginal ≤ Nat.pow 2 24 := by
  have hsize : ∀ i < 7, ∀ op ∈
      (Engine.choose (engine i).config (engine i).marginal).outcome.toOption.join,
      op.hiddenSize (engine i).marginal ≤ Nat.pow 2 24 := by
    decide +kernel
  exact hsize i hi op (by rw [hop]; rfl)

theorem size_le_limit_counted : (engine 0).config.maxFactorSize = some (.finite (Nat.pow 2 24))
    ∧ (∀ i < 7, ∃ kind cost, (engine i).step = (.ok (.applied kind cost), engine (i + 1)))
    ∧ ∀ i ≤ 7, ∀ c ∈ (engine i).marginal.distribution.toList, c.factor.size ≤ Nat.pow 2 24 := by
  have hsize : ∀ c ∈ (engine 0).marginal.distribution.toList, c.factor.size ≤ Nat.pow 2 24 := by
    decide +kernel
  have hvalues : ∀ c ∈ (engine 0).marginal.distribution.toList, ∀ q ∈ c.prvs, q.HasValues := by
    unfold Prv.HasValues
    decide +kernel
  exact ⟨rfl, engine_steps, Engine.size_le_limit rfl (fun c hc => ⟨trivial, hvalues c hc⟩) hsize
    engine_steps fun i hi _ hop =>
    engine_hiddenSize_le hi hop⟩

end Epidemic

end LiftedElimination
