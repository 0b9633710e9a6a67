import LiftedElimination.Proofs.Assignments
import LiftedElimination.Proofs.GroundingCount
import LiftedElimination.Proofs.Normal

/-!
# Summing out is summation

A random variable is summed out of the table once, for every grounding of the variables that stay.
This is the sum over all assignments of what it owns if no two groundings share anything, and if
every grounding of the variables that stay is a part of equally many groundings.  Variables that only
the constraints mention multiply the groundings; they have to do so evenly, too.

* `Even`             equally many groundings extend every grounding of fewer variables;
* `Collapses`        the conditions on a random variable, with both numbers of groundings;
* `SumsOut`          the conditions on a random variable that holds all variables;
* `sumFrom_ok`       the total that is computed for one entry;
* `Collapses.value`  an entry of the result is a product over the groundings that vanish;
* `Collapses.meaning`, `meaning_sumOut`   the meaning of the result is the sum of the meanings.
-/

namespace LiftedElimination

open Finset

namespace ConstraintSet

variable {cs : ConstraintSet} {all vars ws : List LogVar}

/-- the groundings of `all` that agree with `δ` on `vars` -/
def above (cs : ConstraintSet) (all vars : List LogVar) (δ : Valuation) : Finset Valuation :=
  (cs.solutions all).filter fun γ => ∀ x ∈ vars, γ x = δ x

/-- every grounding of `vars` extends to equally many groundings of `all` -/
def Even (cs : ConstraintSet) (all vars : List LogVar) : Prop :=
  ∃ k, 0 < k ∧ ∀ δ ∈ cs.solutions vars, (cs.above all vars δ).card = k

theorem mem_above {γ δ : Valuation} :
    γ ∈ cs.above all vars δ ↔ γ ∈ cs.solutions all ∧ ∀ x ∈ vars, γ x = δ x := mem_filter

theorem restrict_eq_iff (h : ∀ x ∈ vars, x ∈ all) {γ δ : Valuation} (hγ : γ ∈ cs.solutions all)
    (hδ : δ ∈ cs.solutions vars) : γ.restrict vars = δ ↔ ∀ x ∈ vars, γ x = δ x := by
  refine ⟨fun heq x hx => ?_, fun heq => ?_⟩
  · rw [← heq, Valuation.restrict_of_mem hx]
  · exact eq_of_mem_solutions (restrict_mem_solutions ((solves_of_mem hγ).mono h)) hδ fun x hx =>
      (Valuation.restrict_of_mem hx).trans (heq x hx)

/-- a product over groundings, grouped by what they are on fewer variables -/
theorem prod_above {K : Type} [CommMonoid K] (h : ∀ x ∈ vars, x ∈ all) (F : Valuation → K) :
    ∏ γ ∈ cs.solutions all, F γ
      = ∏ δ ∈ cs.solutions vars, ∏ γ ∈ cs.above all vars δ, F γ := by
  classical
  have hmaps : ∀ γ ∈ cs.solutions all, γ.restrict vars ∈ cs.solutions vars := fun γ hγ =>
    restrict_mem_solutions ((solves_of_mem hγ).mono h)
  rw [← prod_fiberwise_of_maps_to hmaps]
  refine prod_congr rfl fun δ hδ => prod_congr ?_ fun _ _ => rfl
  exact filter_congr fun γ hγ => restrict_eq_iff h hγ hδ

/-- evenly spread groundings are multiplied -/
theorem card_solutions_eq (h : ∀ x ∈ vars, x ∈ all) {k : Nat}
    (hk : ∀ δ ∈ cs.solutions vars, (cs.above all vars δ).card = k) :
    (cs.solutions all).card = (cs.solutions vars).card * k := by
  classical
  have hmaps : ∀ γ ∈ cs.solutions all, γ.restrict vars ∈ cs.solutions vars := fun γ hγ =>
    restrict_mem_solutions ((solves_of_mem hγ).mono h)
  rw [card_eq_sum_card_fiberwise hmaps, sum_congr rfl fun δ hδ => ?_, sum_const, smul_eq_mul]
  rw [← hk δ hδ]
  exact congrArg card (filter_congr fun γ hγ => restrict_eq_iff h hγ hδ)

end ConstraintSet

/-- a free variable that the atom mentions can be read off every ground random variable -/
theorem Prv.eq_of_mem_owned {q : Prv} {γ δ : Valuation} {v : RandomVariable} {x : LogVar}
    (hq : q.Valid) (hfree : x ∈ q.freeVars) (hbase : x ∈ q.base.variables) (hγ : v ∈ q.owned γ)
    (hδ : v ∈ q.owned δ) : γ x = δ x := by
  cases q with
  | atom a =>
    have heq := (mem_singleton.mp hγ).symm.trans (mem_singleton.mp hδ)
    exact Atom.eq_of_ground_eq (congrArg RandomVariable.atom heq) hbase
  | count f =>
    obtain ⟨c, -, rfl⟩ := mem_image.mp hγ
    obtain ⟨d, -, hcd⟩ := mem_image.mp hδ
    have hxb : x ≠ f.bound := fun h => CountingFormula.Valid.bound_notMem_freeVars hq (h ▸ hfree)
    have heq := Atom.eq_of_ground_eq (congrArg RandomVariable.atom hcd) hbase
    rw [Function.update_of_ne hxb, Function.update_of_ne hxb] at heq
    exact heq.symm

namespace Parfactor

variable {K : Type} {p r : Parfactor K} {q : Prv} {γ δ : Valuation} {w : World} {b a : Nat}

/-- the variables that stay when `q` goes -/
def staying (p : Parfactor K) (q : Prv) : List LogVar := varsOf (p.prvs.erase q)

theorem mem_staying {x : LogVar} : x ∈ p.staying q ↔ ∃ s ∈ p.prvs.erase q, x ∈ s.freeVars :=
  mem_varsOf

theorem mem_prvVars_of_staying {x : LogVar} (hx : x ∈ p.staying q) : x ∈ p.prvVars := by
  obtain ⟨s, hs, hxs⟩ := mem_staying.mp hx
  exact mem_varsOf.mpr ⟨s, List.mem_of_mem_erase hs, hxs⟩

theorem mem_logVars_of_prvVars {x : LogVar} (hx : x ∈ p.prvVars) : x ∈ p.logVars :=
  mem_addVars.mpr (.inl hx)

theorem mem_logVars_of_staying {x : LogVar} (hx : x ∈ p.staying q) : x ∈ p.logVars :=
  mem_logVars_of_prvVars (mem_prvVars_of_staying hx)

/-- the groundings of the variables that the random variables mention -/
def prvSolutions (p : Parfactor K) : Finset Valuation := p.constraints.solutions p.prvVars

/-- the ground random variables that `q` stands for -/
def denoted (p : Parfactor K) (q : Prv) : Finset RandomVariable := p.prvSolutions.biUnion q.owned

/-- the groundings of `q` own different things, which no other random variable owns; every grounding
of the random variables extends to `b` of all variables, every grounding of the variables that stay
to `a` of the random variables, and all of them can be counted -/
structure Collapses (p : Parfactor K) (q : Prv) (b a : Nat) : Prop where
  disjoint : ∀ γ ∈ p.prvSolutions, ∀ δ ∈ p.prvSolutions, γ ≠ δ → Disjoint (q.owned γ) (q.owned δ)
  apart : ∀ s ∈ p.prvs, s ≠ q → Disjoint (p.denoted s) (p.denoted q)
  constrained : ∀ γ ∈ p.prvSolutions, (p.constraints.above p.logVars p.prvVars γ).card = b
  vanishing : ∀ δ ∈ p.constraints.solutions (p.staying q),
    (p.constraints.above p.prvVars (p.staying q) δ).card = a
  ordered : p.constraints.IsOrdered
  few : ∀ vars ∈ [p.logVars, p.prvVars, p.staying q],
    (p.constraints.solutions vars).card ≤ Cost.limit

/-- `q` holds all variables, its groundings own different things, which no other random variable
owns, and the variables that vanish do so evenly -/
structure SumsOut (p : Parfactor K) (q : Prv) : Prop where
  covers : ∀ x ∈ p.logVars, x ∈ q.freeVars
  disjoint : ∀ γ ∈ p.solutions, ∀ δ ∈ p.solutions, γ ≠ δ → Disjoint (q.owned γ) (q.owned δ)
  apart : ∀ s ∈ p.prvs, s ≠ q → ∀ γ ∈ p.solutions, ∀ δ ∈ p.solutions,
    Disjoint (s.owned γ) (q.owned δ)
  even : p.constraints.Even p.logVars (p.staying q)
  ordered : p.constraints.IsOrdered
  few : p.solutions.card ≤ Cost.limit

/-! ## what summing out computes -/

section
variable [Scalar K]

/-- where `q` occurs once, its place is found, and it is taken out of the random variables -/
theorem sumOut_eq_rebuild (hone : p.prvs.count q = 1) : ∃ i, p.prvs[i]? = some q
    ∧ p.prvs.erase q = p.prvs.eraseIdx i ∧ q ∉ p.prvs.erase q
    ∧ p.sumOut q = rebuild (p.constraints.restrictTo (p.staying q)) (p.prvs.erase q)
      (fun digits => do
        let total ← sumFrom p.factor p.sizes i digits
          (Scalar.powRatio · (p.constraints.countGroundings p.logVars)
            (p.constraints.countGroundings p.prvVars)) (weights q) 0 0
        return Scalar.powRatio total (p.constraints.countGroundings p.prvVars)
          (p.constraints.countGroundings (p.staying q))) := by
  have hmem : q ∈ p.prvs := List.count_pos_iff.mp (by omega)
  obtain ⟨i, hi⟩ := Option.isSome_iff_exists.mp (List.isSome_idxOf?.mpr hmem)
  have hpos : p.position? q = some i := hi
  have hidx : p.prvs.idxOf q = i := by
    rw [List.idxOf_eq_getD_idxOf?, ← position?, hpos]
    rfl
  have herase := List.erase_eq_eraseIdx_of_idxOf hidx
  refine ⟨i, getElem?_of_position? hpos, herase, ?_, ?_⟩
  · rw [← List.count_eq_zero, List.count_erase_self]
    exact Nat.sub_eq_zero_of_le hone.le
  · unfold sumOut
    rw [show p.occurrences q = 1 from hone, hpos, staying, herase]
    rfl

theorem count_of_sumOut (h : p.sumOut q = .ok r) : p.prvs.count q = 1 := by
  unfold sumOut at h
  split at h
  · assumption
  · cases h
  · cases h

theorem sumOut_ok (h : p.sumOut q = .ok r) : ∃ i, p.prvs[i]? = some q
    ∧ p.prvs.erase q = p.prvs.eraseIdx i ∧ q ∉ p.prvs.erase q
    ∧ rebuild (p.constraints.restrictTo (p.staying q)) (p.prvs.erase q) (fun digits => do
      let total ← sumFrom p.factor p.sizes i digits
        (Scalar.powRatio · (p.constraints.countGroundings p.logVars)
          (p.constraints.countGroundings p.prvVars)) (weights q) 0 0
      return Scalar.powRatio total (p.constraints.countGroundings p.prvVars)
        (p.constraints.countGroundings (p.staying q))) = .ok r := by
  obtain ⟨i, hi, herase, hnot, heq⟩ := sumOut_eq_rebuild (count_of_sumOut h)
  exact ⟨i, hi, herase, hnot, heq ▸ h⟩

theorem parts_sumOut (h : p.sumOut q = .ok r) :
    r.constraints = p.constraints.restrictTo (p.staying q) ∧ r.prvs = p.prvs.erase q := by
  obtain ⟨_, -, -, -, hr⟩ := sumOut_ok h
  obtain ⟨hcs, hprvs, -⟩ := rebuild_ok hr
  exact ⟨hcs, hprvs⟩

theorem mem_logVars_sumOut (h : p.sumOut q = .ok r) {x : LogVar} :
    x ∈ r.logVars ↔ x ∈ p.staying q := by
  obtain ⟨hcs, hprvs⟩ := parts_sumOut h
  rw [mem_logVars, hprvs, hcs, ← mem_staying]
  refine ⟨fun hx => hx.elim id fun hx => ?_, .inl⟩
  obtain ⟨c, hc, hxc⟩ := ConstraintSet.mem_variables.mp hx
  exact (ConstraintSet.mem_restrictTo.mp hc).2 x hxc

/-- the formulas that stay bind none of the logical variables -/
theorem Proper.sumOut (hp : p.Proper) (h : p.sumOut q = .ok r) : r.Proper := by
  have hmem : ∀ t ∈ r.prvs, t ∈ p.prvs := fun t ht =>
    List.mem_of_mem_erase ((parts_sumOut h).2 ▸ ht)
  exact ⟨fun t ht => hp.valid t (hmem t ht), fun f hf hbound =>
    hp.bound f (hmem _ hf) (mem_logVars_of_staying ((mem_logVars_sumOut h).mp hbound))⟩

end

section
variable [ExactScalar K]

/-! ## one entry -/

/-- the weighted total over the values from `v` on -/
theorem sumFrom_ok {t : Factor K} {sizes digits : List Nat} {i : Nat} {powered : K → K}
    {ws : List K} {v : Nat} {acc x : K} (h : sumFrom t sizes i digits powered ws v acc = .ok x) :
    x = acc + ∑ k ∈ range ws.length,
      ws.getD k 0 * powered (t.lookup sizes (digits.insertIdx i (v + k))) := by
  induction ws generalizing v acc with
  | nil =>
    cases h
    rw [List.length_nil, range_zero, sum_empty, add_zero]
  | cons a ws ih =>
    unfold sumFrom at h
    split at h
    · cases h
    · rename_i y hy
      rw [ih h, List.length_cons, sum_range_succ', ← Factor.lookup_of_entry hy]
      simp only [List.getD_cons_succ, List.getD_cons_zero, Nat.add_zero]
      rw [add_assoc, add_comm (∑ k ∈ range ws.length, _)]
      simp only [Nat.add_assoc, Nat.add_comm 1]

/-! ## the result -/

/-- the groundings of the variables that stay -/
theorem solutions_sumOut (h : p.sumOut q = .ok r) :
    r.solutions = p.constraints.solutions (p.staying q) := by
  rw [solutions, ConstraintSet.solutions_congr fun x => mem_logVars_sumOut h, (parts_sumOut h).1]
  exact ConstraintSet.solutions_restrictTo fun _ hx => hx

/-- a grounding of the result is a part of a grounding of the parfactor -/
theorem SumsOut.exists_above (hq : p.SumsOut q) (h : p.sumOut q = .ok r) (hδ : δ ∈ r.solutions) :
    ∃ γ ∈ p.solutions, ∀ x ∈ p.staying q, γ x = δ x := by
  obtain ⟨k, hpos, hk⟩ := hq.even
  rw [solutions_sumOut h] at hδ
  have hcard := hk δ hδ
  obtain ⟨γ, hγ⟩ := card_pos.mp (hcard ▸ hpos)
  exact ⟨γ, ConstraintSet.mem_above.mp hγ⟩

theorem sound_sumOut (hp : p.Sound) (hq : p.SumsOut q) (h : p.sumOut q = .ok r) : r.Sound := by
  obtain ⟨_, -, -, -, hr⟩ := sumOut_ok h
  refine sound_rebuild hr (fun s hs => hp.valid s (List.mem_of_mem_erase hs)) (fun c hc => ?_)
    (fun f hf hbound => ?_) fun δ hδ s hs => ?_
  · exact hp.satisfiable c (ConstraintSet.mem_restrictTo.mp hc).1
  · exact hp.bound f (List.mem_of_mem_erase hf)
      (mem_logVars_of_staying ((mem_logVars_sumOut h).mp hbound))
  · obtain ⟨γ, hγ, heq⟩ := hq.exists_above h hδ
    have hs' := List.mem_of_mem_erase hs
    exact Prv.exact_congr (hp.valid s hs') (fun x hx => heq x (mem_staying.mpr ⟨s, hs, hx⟩))
      (hp.exact γ hγ s hs')

omit [ExactScalar K] in
/-- the digits of the parfactor are those of the result with one more at the place of `q` -/
theorem digits_insertIdx (hvalid : ∀ s ∈ p.prvs, s.Valid) (hq : p.Collapses q b a) {i : Nat}
    (hi : p.prvs[i]? = some q) (herase : p.prvs.erase q = p.prvs.eraseIdx i)
    (hnot : q ∉ p.prvs.erase q) (hγ : γ ∈ p.prvSolutions) (heq : ∀ x ∈ p.staying q, γ x = δ x)
    {u : World} (hu : u ∈ w.assignments (q.owned γ)) :
    ((p.prvs.erase q).map (·.read δ w)).insertIdx i (q.read γ u) = p.digits γ u := by
  have hout := (World.mem_assignments.mp hu).2
  have hothers : (p.prvs.erase q).map (·.read δ w) = (p.prvs.erase q).map (·.read γ u) := by
    refine List.map_congr_left fun s hs => ?_
    have hs' := List.mem_of_mem_erase hs
    have hapart := hq.apart s hs' fun h => hnot (h ▸ hs)
    rw [← Prv.read_congr (hvalid s hs') fun x hx => heq x (mem_staying.mpr ⟨s, hs, hx⟩)]
    refine Prv.read_congr_world fun v hv => (hout v fun hvq => ?_).symm
    exact disjoint_left.mp hapart (mem_biUnion.mpr ⟨γ, hγ, hv⟩) (mem_biUnion.mpr ⟨γ, hγ, hvq⟩)
  rw [hothers, herase, ← List.map_insertIdx, insertIdx_eraseIdx hi]
  rfl

omit [ExactScalar K] in
/-- the groundings of all variables, and of those that random variables mention -/
theorem Collapses.card_eq (hq : p.Collapses q b a) :
    p.solutions.card = b * p.prvSolutions.card
      ∧ p.prvSolutions.card = a * (p.constraints.solutions (p.staying q)).card := by
  rw [Nat.mul_comm, Nat.mul_comm a]
  exact ⟨ConstraintSet.card_solutions_eq (fun _ hx => mem_logVars_of_prvVars hx) hq.constrained,
    ConstraintSet.card_solutions_eq (fun _ hx => mem_prvVars_of_staying hx) hq.vanishing⟩

omit [ExactScalar K] in
/-- the numbers of groundings that summing out computes with -/
theorem Collapses.counts (hsat : ∀ c ∈ p.constraints, c.isContradiction = false)
    (hq : p.Collapses q b a) :
    p.constraints.countGroundings p.logVars = .finite p.solutions.card
      ∧ p.constraints.countGroundings p.prvVars = .finite p.prvSolutions.card
      ∧ p.constraints.countGroundings (p.staying q)
        = .finite (p.constraints.solutions (p.staying q)).card := by
  have hcount : ∀ vars ∈ [p.logVars, p.prvVars, p.staying q], vars.Nodup →
      p.constraints.countGroundings vars = .finite (p.constraints.solutions vars).card :=
    fun vars hvars hnd => ConstraintSet.countGroundings_eq hq.ordered hsat hnd (hq.few vars hvars)
  exact ⟨hcount _ (by simp) p.nodup_logVars, hcount _ (by simp) (nodup_addVars List.nodup_nil),
    hcount _ (by simp) (nodup_addVars List.nodup_nil)⟩

theorem powRatio_card {x : K} {n m k : Nat} (h : n = k * m) (hm : m ≠ 0) :
    Scalar.powRatio x (.finite n) (.finite m) = x ^ k := by
  rw [h]
  exact ExactScalar.powRatio_eq x k m hm

/-- **An entry of the result** is a product over the groundings that vanish. -/
theorem Collapses.value (hvalid : ∀ s ∈ p.prvs, s.Valid)
    (hsat : ∀ c ∈ p.constraints, c.isContradiction = false) (hq : p.Collapses q b a)
    (haccurate : ∀ γ ∈ p.prvSolutions, q.Accurate γ) (h : p.sumOut q = .ok r) (hr : r.Readable)
    (hδ : δ ∈ r.solutions) (hw : w.Legal (r.owned δ)) : r.value δ w
      = ∏ γ ∈ p.constraints.above p.prvVars (p.staying q) δ,
          ∑ u ∈ w.assignments (q.owned γ), p.value γ u ^ b := by
  obtain ⟨i, hi, herase, hnot, hrebuild⟩ := sumOut_ok h
  have hmem : q ∈ p.prvs := List.mem_of_getElem? hi
  obtain ⟨hall, hprv, hstay⟩ := hq.counts hsat
  obtain ⟨hcard, hcard'⟩ := hq.card_eq
  have hvalue := value_rebuild hrebuild hr hδ hw
  rw [hall, hprv, hstay] at hvalue
  obtain ⟨total, htotal, hpow⟩ := bind_ok hvalue
  rw [solutions_sumOut h] at hδ
  have hne : (p.constraints.solutions (p.staying q)).card ≠ 0 := (card_pos.mpr ⟨δ, hδ⟩).ne'
  have hsum : ∀ γ ∈ p.constraints.above p.prvVars (p.staying q) δ,
      ∑ u ∈ w.assignments (q.owned γ), p.value γ u ^ b = total := by
    intro γ hγ
    obtain ⟨hγ, heq⟩ := ConstraintSet.mem_above.mp hγ
    have hne' : p.prvSolutions.card ≠ 0 := (card_pos.mpr ⟨γ, hγ⟩).ne'
    rw [sumFrom_ok htotal, zero_add, digits, (parts_sumOut h).2]
    simp only [powRatio_card hcard hne', Nat.zero_add]
    rw [← Prv.sum_assignments (hvalid q hmem) (haccurate γ hγ) w fun k =>
      p.factor.lookup p.sizes (((p.prvs.erase q).map (·.read δ w)).insertIdx i k) ^ b]
    refine sum_congr rfl fun u hu => ?_
    rw [digits_insertIdx hvalid hq hi herase hnot hγ heq hu]
    rfl
  rw [prod_congr rfl hsum, prod_const, hq.vanishing δ hδ, ← Except.ok.inj hpow]
  exact powRatio_card hcard' hne

/-! ## the sum over all assignments -/

/-- groundings that agree on the variables of the random variables select the same entry -/
theorem meaning_eq_pow (hvalid : ∀ s ∈ p.prvs, s.Valid) (hq : p.Collapses q b a) (u : World) :
    p.meaning u = ∏ γ ∈ p.prvSolutions, p.value γ u ^ b := by
  rw [meaning, solutions, ConstraintSet.prod_above fun x hx => mem_logVars_of_prvVars hx]
  refine prod_congr rfl fun γ hγ => ?_
  rw [← hq.constrained γ hγ]
  refine prod_eq_pow_card fun ε hε => ?_
  rw [Parfactor.value, digits_congr hvalid (ConstraintSet.mem_above.mp hε).2]
  rfl

/-- the sum over all assignments of what `q` stands for -/
theorem Collapses.meaning (hvalid : ∀ s ∈ p.prvs, s.Valid)
    (hsat : ∀ c ∈ p.constraints, c.isContradiction = false) (hq : p.Collapses q b a)
    (haccurate : ∀ γ ∈ p.prvSolutions, q.Accurate γ) (h : p.sumOut q = .ok r) (hr : r.Readable)
    (hw : w.Legal r.scope) :
    r.meaning w = ∑ u ∈ w.assignments (p.denoted q), p.meaning u := by
  classical
  have hsum := prod_sum_overrides p.prvSolutions q.owned hq.disjoint (fun v => range v.range.size)
    (fun γ u => p.value γ u ^ b) (fun γ hγ ε hε hne u u' huu => ?_) w
  · rw [sum_congr rfl fun u _ => meaning_eq_pow hvalid hq u]
    refine Eq.trans ?_ hsum
    rw [prvSolutions, ConstraintSet.prod_above fun x hx => mem_prvVars_of_staying hx,
      Parfactor.meaning, ← solutions_sumOut h]
    exact prod_congr rfl fun δ hδ =>
      hq.value hvalid hsat haccurate h hr hδ (hw.mono (owned_subset_scope hδ))
  · refine congrArg (· ^ b) (value_congr_world fun v hv => huu v fun hvε => ?_)
    obtain ⟨s, hs, hv⟩ := mem_owned.mp hv
    by_cases hsq : s = q
    · subst hsq
      exact disjoint_left.mp (hq.disjoint γ hγ ε hε hne) hv hvε
    · exact disjoint_left.mp (hq.apart s hs hsq) (mem_biUnion.mpr ⟨γ, hγ, hv⟩)
        (mem_biUnion.mpr ⟨ε, hε, hvε⟩)

/-! ## a random variable that holds all variables -/

omit [ExactScalar K] in
/-- no variable is left to the constraints alone -/
theorem prvSolutions_eq (hmem : q ∈ p.prvs) (hcovers : ∀ x ∈ p.logVars, x ∈ q.freeVars) :
    p.prvSolutions = p.solutions :=
  ConstraintSet.solutions_congr fun x => ⟨mem_logVars_of_prvVars, fun hx =>
    mem_varsOf.mpr ⟨q, hmem, hcovers x hx⟩⟩

omit [ExactScalar K] in
theorem SumsOut.collapses (hq : p.SumsOut q) (hmem : q ∈ p.prvs) : ∃ k, p.Collapses q 1 k := by
  obtain ⟨k, hpos, hk⟩ := hq.even
  have hsols := prvSolutions_eq hmem hq.covers
  have habove : ∀ vars δ, p.constraints.above p.prvVars vars δ
      = p.constraints.above p.logVars vars δ := fun vars δ => congrArg (filter _) hsols
  have hstay : (p.constraints.solutions (p.staying q)).card ≤ p.solutions.card := by
    rw [solutions, ConstraintSet.card_solutions_eq (fun _ hx => mem_logVars_of_staying hx) hk]
    exact Nat.le_mul_of_pos_right _ hpos
  refine ⟨k, ?_, fun s hs hne => ?_, fun γ hγ => ?_, fun δ hδ => ?_, hq.ordered, fun vars hvars => ?_⟩
  · rw [hsols]
    exact hq.disjoint
  · rw [denoted, denoted, hsols, disjoint_biUnion_left]
    exact fun γ hγ => disjoint_biUnion_right _ _ _ |>.mpr fun δ hδ => hq.apart s hs hne γ hγ δ hδ
  · -- a grounding extends itself only
    rw [← habove]
    refine card_eq_one.mpr ⟨γ, eq_singleton_iff_unique_mem.mpr ⟨?_, fun ε hε => ?_⟩⟩
    · exact ConstraintSet.mem_above.mpr ⟨hγ, fun _ _ => rfl⟩
    · obtain ⟨hε, heq⟩ := ConstraintSet.mem_above.mp hε
      exact ConstraintSet.eq_of_mem_solutions hε hγ heq
  · rw [habove]
    exact hk δ hδ
  · have hcard : (p.constraints.solutions vars).card ≤ p.solutions.card := by
      simp only [List.mem_cons, List.not_mem_nil, or_false] at hvars
      rcases hvars with rfl | rfl | rfl
      · exact le_rfl
      · exact (congrArg card hsols).le
      · exact hstay
    exact hcard.trans hq.few

/-- the ground random variables that are summed out -/
def vanishing (p : Parfactor K) (q : Prv) : Finset RandomVariable := p.solutions.biUnion q.owned

theorem scope_sumOut (hp : p.Sound) (hq : p.SumsOut q) (h : p.sumOut q = .ok r) :
    r.scope ⊆ p.scope \ p.vanishing q := by
  intro v hv
  obtain ⟨δ, hδ, hv⟩ := mem_scope.mp hv
  obtain ⟨s, hs, hv⟩ := mem_owned.mp hv
  rw [(parts_sumOut h).2] at hs
  obtain ⟨γ, hγ, heq⟩ := hq.exists_above h hδ
  obtain ⟨_, -, -, hnot, -⟩ := sumOut_ok h
  have hs' := List.mem_of_mem_erase hs
  have hne : s ≠ q := fun h => hnot (h ▸ hs)
  rw [← Prv.owned_congr (hp.valid s hs') fun x hx => heq x (mem_staying.mpr ⟨s, hs, hx⟩)] at hv
  refine mem_sdiff.mpr ⟨mem_scope.mpr ⟨γ, hγ, mem_owned.mpr ⟨s, hs', hv⟩⟩, fun hvq => ?_⟩
  obtain ⟨ε, hε, hvq⟩ := mem_biUnion.mp hvq
  exact disjoint_left.mp (hq.apart s hs' hne γ hγ ε hε) hv hvq

/-- **Summing out is summation**: the meaning of the result is the sum, over all assignments of what
vanishes, of the meanings of the parfactor. -/
theorem meaning_sumOut (hp : p.Sound) (hq : p.SumsOut q) (h : p.sumOut q = .ok r)
    (hw : w.Legal r.scope) :
    r.meaning w = ∑ u ∈ w.assignments (p.vanishing q), p.meaning u := by
  obtain ⟨_, hi, -, -, -⟩ := sumOut_ok h
  have hmem : q ∈ p.prvs := List.mem_of_getElem? hi
  obtain ⟨k, hk⟩ := hq.collapses hmem
  have haccurate : ∀ γ ∈ p.solutions, q.Accurate γ := fun γ hγ => (hp.exact γ hγ q hmem).accurate
  rw [← prvSolutions_eq hmem hq.covers] at haccurate
  rw [vanishing, ← prvSolutions_eq hmem hq.covers]
  exact hk.meaning hp.valid hp.satisfiable haccurate h (sound_sumOut hp hq h).readable hw

end

end Parfactor

end LiftedElimination
