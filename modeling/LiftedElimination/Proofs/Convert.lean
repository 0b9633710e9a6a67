import LiftedElimination.Proofs.Normal

/-!
# Aggregations as parfactors

An aggregation parfactor is converted to a parfactor that weighs every parent, and one that compares
the child with the aggregate of the histogram of the parents.  Both together mean what the
aggregation parfactor means, as long as the parents are counted right and the variables that only the
context mentions have somebody to stand for.

* `overHistogram_eq_combine`   the aggregate of a histogram is that of the values that it counts;
* `lookup_indicators`          the entries of the comparing table;
* `Aggregation.Readable`       what the conversion relies on; there may be no parents;
* `prod_weights`, `prod_indicators`   the two factors over the groundings of their own parfactors;
* `meaning_toParfactors`       the two parfactors mean what the aggregation parfactor means;
* `restates_toParfactors`      where it has groundings, they restate it.
-/

namespace LiftedElimination

open Finset

variable {K : Type}

/-! ## aggregates -/

namespace Operator

open Histogram

section
variable {α : Type} {n : Nat} {s : Finset α} {value : α → Nat}

/-- the place of the first positive count is the least value -/
theorem firstPositive?_tally (hlegal : ∀ c ∈ s, value c < n) :
    (firstPositive? (tally n s value)).getD (n - 1) = s.fold min (n - 1) value := by
  cases h : firstPositive? (tally n s value) with
  | none =>
    have hempty : s = ∅ := by
      refine eq_empty_of_forall_notMem fun c hc => ?_
      have hlt : value c < (tally n s value).length := length_tally.symm ▸ hlegal c hc
      have hzero := List.findIdx?_eq_none_iff.mp h _ (List.getElem_mem hlt)
      rw [decide_eq_false_iff_not] at hzero
      exact hzero ((tally_pos hlt).mpr ⟨c, hc, rfl⟩)
    rw [hempty]
    rfl
  | some m =>
    obtain ⟨hm, hpos, hleast⟩ := List.findIdx?_eq_some_iff_getElem.mp h
    obtain ⟨c, hc, hcm⟩ := (tally_pos hm).mp (of_decide_eq_true hpos)
    refine le_antisymm ((le_fold_min _).mpr ⟨?_, fun d hd => ?_⟩)
      ((fold_min_le _).mpr (.inr ⟨c, hc, hcm.le⟩))
    · rw [length_tally] at hm
      show m ≤ n - 1
      omega
    · by_contra hlt
      have hdm : value d < m := not_le.mp hlt
      have hd' : value d < (tally n s value).length := hdm.trans hm
      exact hleast _ hdm (decide_eq_true ((tally_pos hd').mpr ⟨d, hd, rfl⟩))

/-- the place of the last positive count is the largest value -/
theorem lastPositive?_tally (hlegal : ∀ c ∈ s, value c < n) :
    (lastPositive? (tally n s value)).getD 0 = s.sup value := by
  unfold lastPositive?
  cases h : firstPositive? (tally n s value).reverse with
  | none =>
    have hempty : s = ∅ := by
      refine eq_empty_of_forall_notMem fun c hc => ?_
      have hlt : value c < (tally n s value).length := length_tally.symm ▸ hlegal c hc
      have hzero := List.findIdx?_eq_none_iff.mp h _ (List.mem_reverse.mpr (List.getElem_mem hlt))
      rw [decide_eq_false_iff_not] at hzero
      exact hzero ((tally_pos hlt).mpr ⟨c, hc, rfl⟩)
    rw [hempty]
    rfl
  | some m =>
    obtain ⟨hm, hpos, hleast⟩ := List.findIdx?_eq_some_iff_getElem.mp h
    rw [List.length_reverse, length_tally] at hm
    show (tally n s value).length - 1 - m = _
    have hlt : (tally n s value).length - 1 - m < (tally n s value).length := by
      rw [length_tally]
      omega
    rw [List.getElem_reverse, decide_eq_true_eq] at hpos
    obtain ⟨c, hc, hcm⟩ := (tally_pos hlt).mp hpos
    refine le_antisymm (hcm ▸ le_sup hc) (Finset.sup_le fun d hd => ?_)
    by_contra hgt
    have hdn := hlegal d hd
    rw [length_tally] at hgt
    have hdlt : n - 1 - value d < m := by omega
    refine hleast (n - 1 - value d) hdlt (decide_eq_true ?_)
    have hplace : (tally n s value).length - 1 - (n - 1 - value d) = value d := by
      rw [length_tally]
      omega
    rw [List.getElem_reverse]
    simp only [hplace]
    exact (tally_pos _).mpr ⟨d, hd, rfl⟩

/-- **The aggregate of a histogram** is that of the values that it counts. -/
theorem overHistogram_eq_combine (op : Operator) (hlegal : ∀ c ∈ s, value c < n) :
    op.overHistogram ⟨tally n s value⟩ = op.combine n s value := by
  unfold overHistogram combine
  rw [lastPositive?_tally hlegal]
  dsimp only
  rw [length_tally, firstPositive?_tally hlegal]

end

end Operator

/-! ## the two tables -/

/-- the entry at place `c` of the row at place `i`, in a table written row by row -/
theorem getElem?_rows {α β : Type} (l : List α) (row : α → Nat → β) {n c : Nat} (hc : c < n) (i : Nat) :
    (l.flatMap fun a => (List.range n).map (row a))[i * n + c]? = l[i]?.map fun a => row a c := by
  induction l generalizing i with
  | nil => rfl
  | cons a l ih =>
    have hlen : ((List.range n).map (row a)).length = n := by simp
    rw [List.flatMap_cons]
    cases i with
    | zero =>
      rw [Nat.zero_mul, Nat.zero_add, List.getElem?_append_left (hlen.symm ▸ hc), List.getElem?_map,
        List.getElem?_range hc]
      rfl
    | succ i =>
      have hplace : (i + 1) * n + c - ((List.range n).map (row a)).length = i * n + c := by
        rw [hlen, Nat.succ_mul]
        omega
      rw [List.getElem?_append_right (by rw [hlen, Nat.succ_mul]; omega), hplace, ih]
      rfl

theorem length_rows {α β : Type} (l : List α) (row : α → Nat → β) (n : Nat) :
    (l.flatMap fun a => (List.range n).map (row a)).length = l.length * n := by
  simp [List.length_flatMap, List.map_const', List.sum_replicate]

/-- a constraint on two variables separates them -/
theorem Constraint.otherVar?_of_mem_variables {c : Constraint} {x z : LogVar}
    (hx : x ∈ c.variables) (hz : z ∈ c.variables) (hne : z ≠ x) : c.otherVar? x = some z := by
  rw [otherVar?_eq_some]
  rcases mem_variables.mp hx with rfl | hs
  · exact .inl ⟨rfl, (mem_variables.mp hz).resolve_left hne⟩
  · rcases mem_variables.mp hz with rfl | hs'
    · exact .inr ⟨hne, rfl, hs⟩
    · exact absurd (Term.var.inj (hs'.symm.trans hs)) hne

namespace Aggregation

variable {a : Aggregation K} {γ δ : Valuation} {w : World}

section
variable [ExactScalar K]

/-- **The comparing table** has a one where the child has the aggregate of the histogram. -/
theorem lookup_indicators {op : Operator} {histograms : List Histogram} {h : Histogram}
    {rows n c : Nat} (hmem : h ∈ histograms) (hc : c < n) :
    (⟨(indicators (K := K) op histograms n).toArray⟩ : Factor K).lookup [rows, n]
      [histograms.idxOf h, c] = if c = op.overHistogram h then 1 else 0 := by
  have hindex : Index.indexOf [rows, n] [histograms.idxOf h, c] = histograms.idxOf h * n + c := by
    show (0 * rows + histograms.idxOf h) * n + c = _
    rw [Nat.zero_mul, Nat.zero_add]
  unfold Factor.lookup indicators
  rw [hindex, List.getElem?_toArray, getElem?_rows histograms _ hc, List.getElem?_idxOf hmem]
  rfl

/-- a table of ones weighs nothing -/
theorem lookup_allOnes {t : Factor K} {sizes digits : List Nat} (h : t.isAllOnes = true)
    (hsize : t.size = sizes.prod) (hd : Index.Below digits sizes) :
    t.lookup sizes digits = 1 := by
  have hlt : Index.indexOf sizes digits < t.values.size := (Index.indexOf_lt hd).trans_eq hsize.symm
  unfold Factor.lookup
  rw [Array.getElem?_eq_getElem hlt]
  exact (ExactScalar.isOne_iff _).mp (Array.all_eq_true.mp h _ hlt)

end

/-- the variables that only the context mentions have individuals -/
def Populated (a : Aggregation K) : Prop :=
  ∀ b ∈ a.context, ∀ x ∈ b.variables, x ∉ a.child.variables → x ∉ a.constraints.variables →
    ∃ c, c ∈ x.population

/-- the extra variable belongs to the parent alone, a formula counts the parents as its domain size
says, maybe nobody, the table has an entry for every value of the parent and the context, and the
variables that only the context mentions have individuals -/
structure Readable (a : Aggregation K) : Prop where
  extra_mem : a.extra ∈ a.parent.variables
  child : ∀ x ∈ a.child.variables, x ∈ a.parent.variables ∧ x ≠ a.extra
  context : ∀ b ∈ a.context, a.extra ∉ b.variables
  valid : a.formula.Valid
  accurate : ∀ γ ∈ a.solutions, a.formula.Accurate γ
  size : 0 < a.sizes.prod → a.factor.size = a.sizes.prod
  populated : a.Populated

theorem Sound.readable (ha : a.Sound) (hγ : γ ∈ a.solutions) : a.Readable := by
  refine ⟨ha.extra_mem, ha.child, ha.context, ha.valid hγ, fun δ hδ => (ha.exact δ hδ).card, ha.size,
    fun b hb x hx _ _ => ⟨γ x, (ConstraintSet.solves_of_mem hγ).mem x ?_⟩⟩
  exact mem_logVars.mpr ⟨.inl ⟨b, context_mem_atoms hb, hx⟩, fun h => ha.context b hb (h ▸ hx)⟩

/-- the context does not depend on the extra variable -/
theorem Readable.groundVar_context (ha : a.Readable) {c : Atom} (hc : c ∈ a.context) (γ : Valuation)
    (d : Constant) : c.groundVar (Function.update γ a.extra d) = c.groundVar γ := by
  refine Atom.groundVar_congr fun x hx => ?_
  have hne : x ≠ a.extra := fun h => ha.context c hc (h ▸ hx)
  rw [Function.update_of_ne hne]

/-! ## the weighing parfactor -/

section
variable {p : Parfactor K}

/-- what the weighing parfactor is made of -/
def Weighs (a : Aggregation K) (p : Parfactor K) : Prop :=
  Parfactor.Made a.constraints (Prv.atom a.parent :: a.context.map Prv.atom) p
    ∧ p.factor = a.factor

theorem Weighs.mem_prvs (h : Weighs a p) {r : Prv} :
    r ∈ p.prvs ↔ r = .atom a.parent ∨ ∃ c ∈ a.context, r = .atom c := by
  rw [h.1.prvs_eq, List.mem_cons, List.mem_map]
  simp only [eq_comm]

/-- the extra variable is a logical variable like the others -/
theorem Weighs.mem_logVars (h : Weighs a p) (ha : a.Readable) {x : LogVar} :
    x ∈ p.logVars ↔ x = a.extra ∨ x ∈ a.logVars := by
  rw [Parfactor.mem_logVars, h.1.constraints_eq, Aggregation.mem_logVars]
  constructor
  · rintro hx
    refine or_iff_not_imp_left.mpr fun hne => ⟨?_, hne⟩
    rcases hx with ⟨r, hr, hxr⟩ | hx
    · rcases h.mem_prvs.mp hr with rfl | ⟨c, hc, rfl⟩
      · exact .inl ⟨_, a.parent_mem_atoms, hxr⟩
      · exact .inl ⟨_, context_mem_atoms hc, hxr⟩
    · exact .inr hx
  · rintro (rfl | ⟨⟨c, hc, hxc⟩ | hx, -⟩)
    · exact .inl ⟨_, h.mem_prvs.mpr (.inl rfl), ha.extra_mem⟩
    · refine .inl ?_
      rcases List.mem_cons.mp hc with rfl | hc
      · exact ⟨_, h.mem_prvs.mpr (.inl rfl), hxc⟩
      · rcases List.mem_cons.mp hc with rfl | hc
        · exact ⟨_, h.mem_prvs.mpr (.inl rfl), (ha.child x hxc).1⟩
        · exact ⟨_, h.mem_prvs.mpr (.inr ⟨c, hc, rfl⟩), hxc⟩
    · exact .inr hx

theorem Weighs.sound (h : Weighs a p) : p.Sound := by
  have hatom : ∀ r ∈ p.prvs, ∃ c, r = .atom c := by
    intro r hr
    rcases h.mem_prvs.mp hr with rfl | ⟨c, -, rfl⟩
    · exact ⟨_, rfl⟩
    · exact ⟨c, rfl⟩
  refine ⟨fun r hr => ?_, fun c hc => h.1.satisfiable c (h.1.constraints_eq ▸ hc),
    fun f hf => ?_, fun γ _ r hr => ?_, fun _ _ r hr => ?_⟩
  · obtain ⟨c, rfl⟩ := hatom r hr
    trivial
  · obtain ⟨c, hc⟩ := hatom _ hf
    cases hc
  · obtain ⟨c, rfl⟩ := hatom r hr
    trivial
  · obtain ⟨c, rfl⟩ := hatom r hr
    trivial

theorem Weighs.variables_subset (h : Weighs a p) {k : Constraint} (hk : k ∈ a.constraints) :
    ∀ z ∈ k.variables, z ∈ p.logVars := fun _ hz =>
  Parfactor.mem_logVars.mpr (.inr (h.1.constraints_eq ▸ ConstraintSet.mem_variables.mpr ⟨k, hk, hz⟩))

theorem Weighs.owned_eq (h : Weighs a p) (γ : Valuation) :
    p.owned γ = insert (a.parent.groundVar γ) (a.context.toFinset.image (·.groundVar γ)) := by
  ext v
  rw [Parfactor.mem_owned, mem_insert, mem_image]
  constructor
  · rintro ⟨r, hr, hv⟩
    rcases h.mem_prvs.mp hr with rfl | ⟨c, hc, rfl⟩
    · exact .inl (mem_singleton.mp hv)
    · exact .inr ⟨c, List.mem_toFinset.mpr hc, (mem_singleton.mp hv).symm⟩
  · rintro (rfl | ⟨c, hc, rfl⟩)
    · exact ⟨_, h.mem_prvs.mpr (.inl rfl), mem_singleton_self _⟩
    · exact ⟨_, h.mem_prvs.mpr (.inr ⟨c, List.mem_toFinset.mp hc, rfl⟩), mem_singleton_self _⟩

/-- a grounding of the weighing parfactor is one of the aggregation with one of its parents -/
theorem Weighs.split (h : Weighs a p) (ha : a.Readable) (hγ : γ ∈ p.solutions) :
    Function.update γ a.extra default ∈ a.solutions
      ∧ γ a.extra ∈ a.formula.counted (Function.update γ a.extra default) := by
  rw [Parfactor.solutions, h.1.constraints_eq] at hγ
  exact ⟨CountingFormula.forget_mem_solutions (f := a.formula) a.extra_notMem_logVars
      (fun _ => h.mem_logVars ha) hγ,
    CountingFormula.apply_bound_mem_counted (f := a.formula) rfl ((h.mem_logVars ha).mpr (.inl rfl))
      (fun k hk _ => h.variables_subset hk) hγ default⟩

theorem Weighs.nonempty (h : Weighs a p) (ha : a.Sound) (hne : a.solutions.Nonempty) :
    p.solutions.Nonempty := by
  obtain ⟨γ, hγ⟩ := hne
  have hexact := ha.exact γ hγ
  obtain ⟨c, hc⟩ := card_pos.mp (hexact.card ▸ hexact.pos)
  rw [Parfactor.solutions, h.1.constraints_eq]
  exact ⟨_, CountingFormula.update_mem_solutions (f := a.formula) rfl a.extra_notMem_logVars
    (fun _ => h.mem_logVars (ha.readable hγ)) hγ hc⟩

theorem Weighs.scope_subset (h : Weighs a p) (ha : a.Readable) : p.scope ⊆ a.scope := by
  refine biUnion_subset.mpr fun γ hγ => ?_
  obtain ⟨hmem, hcounted⟩ := h.split ha hγ
  refine Subset.trans ?_ (subset_biUnion_of_mem a.owned hmem)
  rw [h.owned_eq]
  refine insert_subset ?_ ?_
  · refine mem_union_left _ (mem_image.mpr ⟨_, hcounted, ?_⟩)
    show a.parent.groundVar (Function.update _ a.extra _) = _
    rw [Function.update_idem, Function.update_eq_self]
  · refine Subset.trans (image_subset_iff.mpr fun c hc => ?_) subset_union_right
    exact mem_insert_of_mem (mem_image.mpr
      ⟨c, hc, ha.groundVar_context (List.mem_toFinset.mp hc) γ default⟩)

variable [ExactScalar K]

/-- **The weighing parfactor** means the weights of all parents. -/
theorem prod_weights (h : Weighs a p) (ha : a.Readable) (w : World) : p.meaning w
    = ∏ γ ∈ a.solutions, ∏ c ∈ a.formula.counted γ, a.weight (Function.update γ a.extra c) w := by
  have hvalue : ∀ γ, p.value γ w = a.weight γ w := by
    intro γ
    rw [Parfactor.value, Parfactor.digits, Parfactor.sizes, h.1.prvs_eq, h.2, List.map_cons,
      List.map_cons, List.map_map, List.map_map]
    rfl
  rw [Parfactor.meaning, Parfactor.solutions, h.1.constraints_eq, prod_congr rfl fun γ _ => hvalue γ]
  exact CountingFormula.prod_solutions_insert (f := a.formula) rfl a.extra_notMem_logVars
    (fun _ => h.mem_logVars ha) (fun k hk _ => h.variables_subset hk) fun γ => a.weight γ w

/-- without a weighing parfactor all weights are one -/
theorem weight_allOnes (ha : a.Readable) (hones : a.factor.isAllOnes = true) {c : Constant}
    (hc : c ∈ a.formula.counted γ) (hw : w.Legal (a.owned γ)) :
    a.weight (Function.update γ a.extra c) w = 1 := by
  have hcontext : ∀ d ∈ a.context,
      w (d.groundVar (Function.update γ a.extra c)) < d.range.size := by
    intro d hd
    rw [ha.groundVar_context hd]
    exact hw (d.groundVar γ) (mem_union_right _ (mem_insert_of_mem
      (mem_image_of_mem _ (List.mem_toFinset.mpr hd))))
  have hparent : w (a.parent.groundVar (Function.update γ a.extra c)) < a.parent.range.size :=
    hw (a.formula.member γ c) (mem_union_left _ (mem_image_of_mem _ hc))
  have hbelow : Index.Below (w (a.parent.groundVar (Function.update γ a.extra c))
      :: a.context.map fun d => w (d.groundVar (Function.update γ a.extra c))) a.sizes := by
    refine .cons hparent ?_
    exact List.forall₂_map_left_iff.mpr (List.forall₂_map_right_iff.mpr
      (List.forall₂_same.mpr hcontext))
  have hpos : 0 < a.sizes.prod := List.prod_pos fun n hn => by
    rcases List.mem_cons.mp hn with rfl | hn
    · exact Nat.zero_lt_of_lt hparent
    · obtain ⟨d, hd, rfl⟩ := List.mem_map.mp hn
      exact Nat.zero_lt_of_lt (hcontext d hd)
  exact lookup_allOnes hones (ha.size hpos) hbelow

end

/-! ## the comparing parfactor -/

section
variable [ExactScalar K] {g : Parfactor K}

/-- what the comparing parfactor is made of -/
def Compares (a : Aggregation K) (g : Parfactor K) : Prop :=
  Parfactor.Made a.constraintsNotOnExtra [.count a.formula, .atom a.child] g
    ∧ g.factor = ⟨(indicators a.operator a.formula.histograms a.child.range.size).toArray⟩

theorem Compares.mem_prvs (h : Compares a g) {r : Prv} :
    r ∈ g.prvs ↔ r = .count a.formula ∨ r = .atom a.child := by
  rw [h.1.prvs_eq, List.mem_cons, List.mem_singleton]

theorem Compares.logVars_subset (h : Compares a g) (ha : a.Readable) {x : LogVar}
    (hx : x ∈ g.logVars) : x ∈ a.logVars := by
  rcases Parfactor.mem_logVars.mp hx with ⟨r, hr, hx⟩ | hx
  · rcases h.mem_prvs.mp hr with rfl | rfl
    · exact freeVars_subset ha.valid hx
    · exact Aggregation.mem_logVars.mpr ⟨.inl ⟨_, a.child_mem_atoms, hx⟩, (ha.child x hx).2⟩
  · rw [h.1.constraints_eq] at hx
    obtain ⟨k, hk, hxk⟩ := ConstraintSet.mem_variables.mp hx
    obtain ⟨hk, hextra⟩ := ConstraintSet.mem_notOnVariable.mp hk
    exact Aggregation.mem_logVars.mpr ⟨.inr (ConstraintSet.mem_variables.mpr ⟨k, hk, hxk⟩),
      fun h => hextra (h ▸ hxk)⟩

/-- a constraint on the logical variables is one of the comparing parfactor -/
theorem Compares.variables_subset (h : Compares a g) {k : Constraint} (hk : k ∈ a.constraints)
    (hv : ∀ z ∈ k.variables, z ∈ a.logVars) :
    k ∈ g.constraints ∧ ∀ z ∈ k.variables, z ∈ g.logVars := by
  have hextra : a.extra ∉ k.variables := fun hz => a.extra_notMem_logVars (hv _ hz)
  have hmem : k ∈ g.constraints :=
    h.1.constraints_eq.symm ▸ ConstraintSet.mem_notOnVariable.mpr ⟨hk, hextra⟩
  exact ⟨hmem, fun z hz =>
    Parfactor.mem_logVars.mpr (.inr (ConstraintSet.mem_variables.mpr ⟨k, hmem, hz⟩))⟩

theorem Compares.restrict_mem (h : Compares a g) (ha : a.Readable) (hγ : γ ∈ a.solutions) :
    γ.restrict g.logVars ∈ g.solutions := by
  have hs := ConstraintSet.solves_of_mem hγ
  refine ConstraintSet.restrict_mem_solutions ⟨fun x hx => hs.mem x (h.logVars_subset ha hx),
    fun k hk hv => ?_⟩
  rw [h.1.constraints_eq] at hk
  exact hs.holds k (ConstraintSet.mem_notOnVariable.mp hk).1
    fun z hz => h.logVars_subset ha (hv z hz)

/-- the comparing parfactor leaves out only variables of the context -/
theorem Compares.exists_individual (h : Compares a g) (ha : a.Readable) {x : LogVar}
    (hx : x ∈ a.logVars) (hxg : x ∉ g.logVars) : ∃ c, c ∈ x.population := by
  obtain ⟨hx, hextra⟩ := Aggregation.mem_logVars.mp hx
  have hchild : x ∉ a.child.variables := fun hx =>
    hxg (Parfactor.mem_logVars.mpr (.inl ⟨_, h.mem_prvs.mpr (.inr rfl), hx⟩))
  have hformula : x ∉ a.formula.freeVars := fun hx =>
    hxg (Parfactor.mem_logVars.mpr (.inl ⟨_, h.mem_prvs.mpr (.inl rfl), hx⟩))
  have hcs : x ∉ a.constraints.variables := by
    intro hx
    obtain ⟨k, hk, hxk⟩ := ConstraintSet.mem_variables.mp hx
    by_cases hke : a.extra ∈ k.variables
    · -- a constraint on the extra variable is one of the formula
      refine hformula (CountingFormula.mem_freeVars.mpr (.inr ?_))
      exact CountingFormula.mem_excludedVars.mpr ⟨k, ConstraintSet.mem_onVariable.mpr ⟨hk, hke⟩,
        Constraint.otherVar?_of_mem_variables hke hxk hextra⟩
    · refine hxg (Parfactor.mem_logVars.mpr (.inr ?_))
      rw [h.1.constraints_eq]
      exact ConstraintSet.mem_variables.mpr ⟨k, ConstraintSet.mem_notOnVariable.mpr ⟨hk, hke⟩, hxk⟩
  rcases hx with ⟨b, hb, hxb⟩ | hx
  · rcases List.mem_cons.mp hb with rfl | hb
    · exact absurd (CountingFormula.mem_freeVars.mpr (.inl ⟨hxb, hextra⟩)) hformula
    · rcases List.mem_cons.mp hb with rfl | hb
      · exact absurd hxb hchild
      · exact ha.populated b hb x hxb hchild hcs
  · exact absurd hx hcs

/-- every grounding of the comparing parfactor is part of one of the aggregation -/
theorem Compares.exists_extension (h : Compares a g) (ha : a.Readable) (hδ : δ ∈ g.solutions) :
    ∃ ε ∈ a.solutions, ∀ x ∈ g.logVars, ε x = δ x := by
  have hd := ConstraintSet.solves_of_mem hδ
  have hchoice : ∀ x, ∃ c, (x ∈ g.logVars → c = δ x) ∧ (x ∈ a.logVars → c ∈ x.population) := by
    intro x
    by_cases hxg : x ∈ g.logVars
    · exact ⟨δ x, fun _ => rfl, fun _ => hd.mem x hxg⟩
    · by_cases hx : x ∈ a.logVars
      · obtain ⟨c, hc⟩ := h.exists_individual ha hx hxg
        exact ⟨c, fun h => absurd h hxg, fun _ => hc⟩
      · exact ⟨default, fun h => absurd h hxg, fun h => absurd h hx⟩
  choose ε hsame hmem using hchoice
  refine ⟨Valuation.restrict ε a.logVars, ?_, fun x hx => ?_⟩
  · refine ConstraintSet.restrict_mem_solutions ⟨hmem, fun k hk hv => ?_⟩
    obtain ⟨hkg, hvars⟩ := h.variables_subset hk hv
    exact (Constraint.holds_congr fun z hz => hsame z (hvars z hz)).mpr (hd.holds k hkg hvars)
  · rw [Valuation.restrict_of_mem (h.logVars_subset ha hx)]
    exact hsame x hx

theorem Compares.valid (h : Compares a g) (ha : a.Readable) : ∀ r ∈ g.prvs, r.Valid := by
  intro r hr
  rcases h.mem_prvs.mp hr with rfl | rfl
  · exact ha.valid
  · trivial

theorem Compares.tabular (h : Compares a g) (hpos : 0 < g.sizes.prod) :
    ∀ r ∈ g.prvs, r.Tabular := by
  have hsize : a.formula.histograms.length * a.child.range.size
      = a.formula.rangeSize * a.child.range.size := by
    have hvolume := Index.volumeFrom?_ok h.1.size
    rw [h.2] at hvolume
    unfold Factor.size indicators at hvolume
    rw [List.size_toArray, length_rows, Nat.one_mul, List.map_cons, List.map_singleton,
      List.prod_cons, List.prod_singleton] at hvolume
    exact hvolume
  have hchild : 0 < a.child.range.size := by
    refine Nat.pos_of_ne_zero fun hzero => hpos.ne' (List.prod_eq_zero ?_)
    exact List.mem_map.mpr ⟨.atom a.child, h.mem_prvs.mpr (.inr rfl), hzero⟩
  intro r hr
  rcases h.mem_prvs.mp hr with rfl | rfl
  · exact Nat.eq_of_mul_eq_mul_right hchild hsize
  · trivial

theorem Compares.sound (h : Compares a g) (ha : a.Sound) (hne : a.solutions.Nonempty) :
    g.Sound := by
  obtain ⟨γ₁, hγ₁⟩ := hne
  have hread := ha.readable hγ₁
  refine ⟨h.valid hread, fun k hk => h.1.satisfiable k (h.1.constraints_eq ▸ hk), fun f hr => ?_,
    fun δ hδ r hr => ?_, fun _ hpos => h.tabular hpos⟩
  · rcases h.mem_prvs.mp hr with hr | hr
    · cases hr
      exact fun hx => a.extra_notMem_logVars (h.logVars_subset hread hx)
    · cases hr
  · rcases h.mem_prvs.mp hr with rfl | rfl
    · obtain ⟨ε, hε, heq⟩ := h.exists_extension hread hδ
      refine Prv.exact_congr (q := .count a.formula) hread.valid (fun x hx => ?_) (ha.exact ε hε)
      exact heq x (Parfactor.mem_logVars.mpr (.inl ⟨_, hr, hx⟩))
    · trivial

theorem Compares.mem_owned (h : Compares a g) {v : RandomVariable} : v ∈ g.owned γ
    ↔ v ∈ (a.formula.counted γ).image (a.formula.member γ) ∨ v = a.child.groundVar γ := by
  rw [Parfactor.mem_owned]
  constructor
  · rintro ⟨r, hr, hv⟩
    rcases h.mem_prvs.mp hr with rfl | rfl
    · exact .inl hv
    · exact .inr (mem_singleton.mp hv)
  · rintro (hv | rfl)
    · exact ⟨_, h.mem_prvs.mpr (.inl rfl), hv⟩
    · exact ⟨_, h.mem_prvs.mpr (.inr rfl), mem_singleton_self _⟩

theorem Compares.owned_subset (h : Compares a g) : g.owned γ ⊆ a.owned γ := by
  intro v hv
  rcases h.mem_owned.mp hv with hv | rfl
  · exact mem_union_left _ hv
  · exact mem_union_right _ (mem_insert_self _ _)

theorem Compares.scope_subset (h : Compares a g) (ha : a.Readable) : g.scope ⊆ a.scope := by
  refine biUnion_subset.mpr fun δ hδ => ?_
  obtain ⟨ε, hε, heq⟩ := h.exists_extension ha hδ
  rw [← Parfactor.owned_congr (h.valid ha) heq]
  exact h.owned_subset.trans (subset_biUnion_of_mem a.owned hε)

/-- the comparing parfactor has a one where the child has the aggregate of the parents -/
theorem Compares.value_eq (h : Compares a g) (haccurate : a.formula.Accurate γ)
    (hw : w.Legal (a.owned γ)) :
    g.value γ w = if w (a.child.groundVar γ) = a.aggregate γ w then 1 else 0 := by
  have hlegal : ∀ c ∈ a.formula.counted γ, w (a.formula.member γ c) < a.parent.range.size :=
    fun c hc => hw _ (mem_union_left _ (mem_image_of_mem _ hc))
  have hchild : w (a.child.groundVar γ) < a.child.range.size :=
    hw (a.child.groundVar γ) (mem_union_right _ (mem_insert_self _ _))
  have hmem := CountingFormula.histogram_mem haccurate hlegal
  have haggregate : a.operator.overHistogram (a.formula.histogram γ w) = a.aggregate γ w :=
    Operator.overHistogram_eq_combine a.operator hlegal
  rw [Parfactor.value, Parfactor.digits, Parfactor.sizes, h.1.prvs_eq, h.2, ← haggregate]
  exact lookup_indicators hmem hchild

/-- **The comparing parfactor** says for every grounding that the child has the aggregate. -/
theorem prod_indicators (h : Compares a g) (ha : a.Readable) (hw : w.Legal a.scope) : g.meaning w
    = ∏ γ ∈ a.solutions, if w (a.child.groundVar γ) = a.aggregate γ w then 1 else 0 := by
  have hvalue : ∀ ε ∈ a.solutions,
      g.value ε w = if w (a.child.groundVar ε) = a.aggregate ε w then 1 else 0 := fun ε hε =>
    h.value_eq (ha.accurate ε hε) (hw.mono (subset_biUnion_of_mem a.owned hε))
  have hagree : ∀ δ ε : Valuation, (∀ x ∈ g.logVars, ε x = δ x) → g.value δ w = g.value ε w :=
    fun δ ε heq => (Parfactor.value_congr (h.valid ha) heq).symm
  rw [Parfactor.meaning]
  by_cases hall : ∀ ε ∈ a.solutions, w (a.child.groundVar ε) = a.aggregate ε w
  · rw [prod_eq_one fun ε hε => if_pos (hall ε hε)]
    refine prod_eq_one fun δ hδ => ?_
    obtain ⟨ε, hε, heq⟩ := h.exists_extension ha hδ
    rw [hagree δ ε heq, hvalue ε hε, if_pos (hall ε hε)]
  · push Not at hall
    obtain ⟨ε, hε, hne⟩ := hall
    rw [prod_eq_zero hε (if_neg hne)]
    refine prod_eq_zero (h.restrict_mem ha hε) ?_
    rw [hagree _ ε fun x hx => (Valuation.restrict_of_mem hx).symm, hvalue ε hε, if_neg hne]

end

/-- what an aggregation parfactor is converted to -/
theorem exists_compares [ExactScalar K] {l : List (Parfactor K)} (h : a.toParfactors = .ok l) :
    ∃ g, Compares a g ∧ (a.factor.isAllOnes = true ∧ l = [g] ∨ ∃ p, Weighs a p ∧ l = [p, g]) := by
  obtain ⟨weighed, f, g, rfl, hweighed, hf, hg⟩ := toParfactors_ok h
  obtain ⟨rfl, -, -⟩ := CountingFormula.make_ok hf
  refine ⟨g, ⟨(Parfactor.make_ok hg).1, (Parfactor.make_ok hg).2 _ rfl⟩, ?_⟩
  rcases hweighed with ⟨hones, rfl⟩ | ⟨p, hp, rfl⟩
  · exact .inl ⟨hones, rfl⟩
  · exact .inr ⟨p, ⟨(Parfactor.make_ok hp).1, (Parfactor.make_ok hp).2 _ rfl⟩, rfl⟩

/-- **The two parfactors mean what the aggregation parfactor means.** -/
theorem meaning_toParfactors [ExactScalar K] {l : List (Parfactor K)} (ha : a.Readable)
    (h : a.toParfactors = .ok l) (hw : w.Legal a.scope) :
    meaningOf (l.map .standard) w = a.meaning w := by
  obtain ⟨g, hcompares, hl⟩ := exists_compares h
  have hindicators := prod_indicators hcompares ha hw
  have hmeaning : a.meaning w
      = (∏ γ ∈ a.solutions, ∏ c ∈ a.formula.counted γ, a.weight (Function.update γ a.extra c) w)
        * ∏ γ ∈ a.solutions, if w (a.child.groundVar γ) = a.aggregate γ w then (1 : K) else 0 :=
    prod_mul_distrib
  rcases hl with ⟨hones, rfl⟩ | ⟨p, hweighs, rfl⟩
  · show g.meaning w * 1 = a.meaning w
    rw [mul_one, hindicators, hmeaning, prod_eq_one fun γ hγ => prod_eq_one fun c hc => ?_, one_mul]
    exact weight_allOnes ha hones hc (hw.mono (subset_biUnion_of_mem a.owned hγ))
  · show p.meaning w * (g.meaning w * 1) = a.meaning w
    rw [mul_one, prod_weights hweighs ha, hindicators, hmeaning]

/-- **The two parfactors restate the aggregation parfactor**, if it has groundings. -/
theorem restates_toParfactors [ExactScalar K] {l : List (Parfactor K)} (ha : a.Sound)
    (hne : a.solutions.Nonempty) (h : a.toParfactors = .ok l) :
    Restates (.aggregation a) (l.map .standard) := by
  obtain ⟨γ, hγ⟩ := hne
  have hread := ha.readable hγ
  obtain ⟨g, hcompares, hl⟩ := exists_compares h
  have hparts : ∀ p ∈ l, p.Sound ∧ p.scope ⊆ a.scope := by
    intro p hp
    have hpg : Weighs a p ∨ p = g := by
      rcases hl with ⟨-, rfl⟩ | ⟨q, hweighs, rfl⟩
      · exact .inr (List.mem_singleton.mp hp)
      · simp only [List.mem_cons, List.not_mem_nil, or_false] at hp
        rcases hp with rfl | rfl
        · exact .inl hweighs
        · exact .inr rfl
    rcases hpg with hweighs | rfl
    · exact ⟨hweighs.sound, hweighs.scope_subset hread⟩
    · exact ⟨hcompares.sound ha ⟨γ, hγ⟩, hcompares.scope_subset hread⟩
  refine ⟨fun d hd => ?_, fun d hd => ?_, fun w hw => meaning_toParfactors hread h hw⟩
  · obtain ⟨p, hp, rfl⟩ := List.mem_map.mp hd
    exact (hparts p hp).1
  · obtain ⟨p, hp, rfl⟩ := List.mem_map.mp hd
    exact (hparts p hp).2

/-- the two parfactors have groundings, too -/
theorem nonempty_of_mem_toParfactors [ExactScalar K] {l : List (Parfactor K)} (ha : a.Sound)
    (hne : a.solutions.Nonempty) (h : a.toParfactors = .ok l) {p : Parfactor K} (hp : p ∈ l) :
    p.solutions.Nonempty := by
  obtain ⟨γ, hγ⟩ := hne
  obtain ⟨g, hcompares, hl⟩ := exists_compares h
  have hg : g.solutions.Nonempty := ⟨_, hcompares.restrict_mem (ha.readable hγ) hγ⟩
  rcases hl with ⟨-, rfl⟩ | ⟨q, hweighs, rfl⟩
  · exact List.mem_singleton.mp hp ▸ hg
  · simp only [List.mem_cons, List.not_mem_nil, or_false] at hp
    rcases hp with rfl | rfl
    · exact hweighs.nonempty ha ⟨γ, hγ⟩
    · exact hg

end Aggregation

end LiftedElimination
