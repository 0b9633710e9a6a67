import LiftedElimination.Proofs.Comparison
import LiftedElimination.Proofs.Kept
import LiftedElimination.Proofs.Operations

/-!
# Parfactors over a set

Renamed to the set that is eliminated, a parfactor has the variables and the constraints of the set,
and it holds the set exactly once: the instances of any other random variable of it that came out the
same would include those of the set, although its extent is disjoint from that of the set.  So the
parfactors can be multiplied, and the set can be summed out of the product.

* `Prv.instances_apply_subset`  a renamed occurrence has only instances that it had before;
* `Parfactor.apply_ne_of_disjoint`   what is disjoint from a set does not become the set;
* `Parfactor.Spans`             the constraints, the variables, and one occurrence;
* `Parfactor.spans_of_alignAt?` renaming to a set;
* `Parfactor.Spans.multiplyAll`, `errorsIn_multiplyAll`, `errorsIn_sumOut`   products and sums.
-/

namespace LiftedElimination

variable {K : Type}

/-! ## instances of a renamed occurrence -/

theorem Constraint.apply_without {c : Constraint} {s : Substitution} {b : LogVar}
    (hb : b ∉ c.variables) : c.apply (s.without (· = b)) = c.apply s := by
  have hfirst : c.first ≠ b := fun h => hb (mem_variables.mpr (.inl h.symm))
  have hsecond : (s.without (· = b)).apply c.second = s.apply c.second := by
    cases hc : c.second with
    | const d => rfl
    | var y => exact Substitution.apply_without_ne s fun h => hb (mem_variables.mpr (.inr (h ▸ hc)))
  rw [apply, apply, Substitution.apply_without_ne s hfirst, hsecond]

namespace Prv

variable {q : Prv} {s : Substitution} {cs ds : ConstraintSet}

/-- what a substitution does inside an occurrence, where a formula keeps its bound variable -/
def inside : Prv → Substitution → Substitution
  | atom _, s => s
  | count f, s => s.without (· = f.bound)

theorem base_apply (q : Prv) (s : Substitution) :
    (q.apply s).base = q.base.apply (q.inside s) := by
  cases q <;> rfl

theorem isRenaming_inside (hs : s.IsRenaming) (q : Prv) : (q.inside s).IsRenaming := by
  cases q with
  | atom a => exact hs
  | count f => exact hs.without f.bound

theorem mem_constraintsIn_apply {c k : Constraint} (hbound : ∀ f, q = count f → f.bound ∉ cs.variables)
    (hcs : cs.apply s = some ds) (hc : c ∈ q.constraintsIn cs) (hk : c.apply (q.inside s) = some k) :
    k ∈ (q.apply s).constraintsIn ds := by
  cases q with
  | atom a => exact (ConstraintSet.mem_of_apply hcs).mpr ⟨c, hc, hk⟩
  | count f =>
    refine SortedSet.mem_union.mpr ((SortedSet.mem_union.mp hc).imp (fun hc => ?_) fun hc => ?_)
    · have hnot : f.bound ∉ c.variables := fun hmem =>
        hbound f rfl (ConstraintSet.mem_variables.mpr ⟨c, hc, hmem⟩)
      exact (ConstraintSet.mem_of_apply hcs).mpr ⟨c, hc, Constraint.apply_without hnot ▸ hk⟩
    · exact SortedSet.mem_filterMap.mpr ⟨c, hc, hk⟩

/-- **A renamed occurrence has only instances that it had before**, whatever it captures: a grounding
of it, read at the new names, is one of the occurrence. -/
theorem instances_apply_subset (hs : s.IsRenaming)
    (hbound : ∀ f, q = count f → f.bound ∉ cs.variables) (hcs : cs.apply s = some ds) :
    (q.apply s).instances ds ⊆ q.instances cs := by
  rintro _ ⟨γ, hγ, rfl⟩
  have hinside := isRenaming_inside hs q
  rw [base_apply] at hγ
  have himage : ∀ x ∈ q.base.variables, ∀ z, (q.inside s).apply (.var x) = .var z →
      z ∈ (q.base.apply (q.inside s)).variables := fun x hx z hz =>
    Atom.mem_variables_apply.mpr ⟨x, hx, hz⟩
  refine ⟨(q.inside s).pull γ, ⟨fun x hx => ?_, fun c hc hvars => ?_⟩, ?_⟩
  · obtain ⟨z, hz, hpop⟩ := hinside x
    rw [Substitution.pull, hz, ← hpop]
    exact hγ.mem z (himage x hx z hz)
  · obtain ⟨k, hk⟩ := hinside.exists_apply c
    refine (Constraint.holds_of_apply hk γ).mp
      (hγ.holds k (mem_constraintsIn_apply hbound hcs hc hk) fun z hz => ?_)
    obtain ⟨x, hx, hxz⟩ := (Constraint.mem_variables_of_apply hk).mp hz
    exact himage x (hvars x hx) z hxz
  · rw [base_apply, Atom.ground_apply]

end Prv

namespace Parfactor

variable {p q r p' : Parfactor K} {t : PrvSet} {v : Prv}

/-- a parfactor with the constraints and the variables of a set that it holds once -/
structure Spans (t : PrvSet) (p : Parfactor K) : Prop where
  constraints : p.constraints = t.constraints
  logVars : ∀ x, x ∈ p.logVars ↔ x ∈ t.prv.freeVars
  once : p.prvs.count t.prv = 1

/-! ## renaming -/

omit K in
/-- an entry that is written into a list without another copy of it -/
theorem count_set_eq_one {l : List Prv} {k : Nat} (hk : k < l.length)
    (h : ∀ j u, j ≠ k → l[j]? = some u → u ≠ v) : (l.set k v).count v = 1 := by
  have htake : v ∉ l.take k := by
    intro hmem
    obtain ⟨j, hj, hv⟩ := List.mem_take_iff_getElem.mp hmem
    exact h j v (by omega) (List.getElem?_eq_some_iff.mpr ⟨by omega, hv⟩) rfl
  have hdrop : v ∉ l.drop (k + 1) := by
    intro hmem
    obtain ⟨j, hj, hv⟩ := List.mem_drop_iff_getElem.mp hmem
    exact h _ v (by omega) (List.getElem?_eq_some_iff.mpr ⟨by omega, hv⟩) rfl
  rw [List.set_eq_take_append_cons_drop, if_pos hk, List.count_append, List.count_cons_self,
    List.count_eq_zero.mpr htake, List.count_eq_zero.mpr hdrop]

/-- **What is disjoint from a set does not become the set**: its instances would include those of the
set. -/
theorem apply_ne_of_disjoint {rho : Substitution} (hrho : rho.IsRenaming) (hp : p.Proper)
    (hcs : p.constraints.apply rho = some t.constraints) (hne : t.instances.Nonempty)
    (hv : v ∈ p.prvs) (hdisjoint : (Extent.of v p.constraints).compare (.ofSet t) = .disjoint) :
    v.apply rho ≠ t.prv := by
  intro heq
  obtain ⟨g, hg⟩ := hne
  have hover : v.base.IsOver (v.signature v) := v.isOver_signature_left v
  have hset : t.prv.base.IsOver (v.signature v) :=
    heq ▸ Prv.isOver_apply hover hrho.keepsPopulations
  have hbound : ∀ f, v = .count f → f.bound ∉ p.constraints.variables := fun f hf hmem =>
    hp.bound f (hf ▸ hv) (mem_logVars.mpr (.inr hmem))
  have hold : g ∈ v.instances p.constraints := by
    refine Prv.instances_apply_subset hrho hbound hcs ?_
    rwa [heq]
  exact Set.disjoint_left.mp (Extent.disjoint_of_compare hover hset hdisjoint)
    ((Extent.instances_of v p.constraints).superset hold)
    ((Extent.instances_of t.prv t.constraints).superset hg)

/-- a set that a parfactor can be renamed to has instances -/
theorem instances_nonempty_of_alignAt? {k : Nat} (h : Operation.alignAt? t p k = some p') :
    t.instances.Nonempty := by
  obtain ⟨q, rho, -, -, -, hrho, -⟩ := Operation.alignAt?_ok h
  obtain ⟨o, ho⟩ := Extent.exists_overlap_of_renaming? hrho
  obtain ⟨g, hg, -⟩ :=
    Extent.exists_common_of_overlap? (Extent.isClosed_of _ _) (Extent.isClosed_of _ _) ho
  exact ⟨g, (Extent.instances_of t.prv t.constraints).subset hg⟩

/-- a parfactor renamed to a set binds none of its variables -/
theorem proper_alignAt? {k : Nat} (hp : p.Proper) (ht : t.prv.Valid)
    (hfree : ∀ f, Prv.count f ∈ p.prvs → f.bound ∉ t.prv.freeVars)
    (h : Operation.alignAt? t p k = some p') : p'.Proper := by
  obtain ⟨q, o, rho, renamed, -, hplaced, hrenamed, -, hcs, hlog, rfl⟩ :=
    Operation.placed_of_alignAt? hp hfree h
  have hproper := hp.apply hplaced.admits hrenamed
  refine .of_hosts (p := renamed) rfl fun u hu => ?_
  rcases List.mem_or_eq_of_mem_set hu with hu | rfl
  · exact hproper.hosts hu
  · refine ⟨ht, fun x hx => (hlog x).mpr hx, fun f hf hbound => ?_⟩
    rw [hlog, hf] at hbound
    exact CountingFormula.Valid.bound_notMem_freeVars (by rwa [hf] at ht) hbound

/-- **A parfactor renamed to a set** spans it. -/
theorem spans_of_alignAt? {k : Nat} (hp : p.Proper)
    (hfree : ∀ f, Prv.count f ∈ p.prvs → f.bound ∉ t.prv.freeVars)
    (hothers : ∀ j q, j ≠ k → p.prvs[j]? = some q →
      (Extent.of q p.constraints).compare (.ofSet t) = .disjoint)
    (h : Operation.alignAt? t p k = some p') : Spans t p' := by
  have hne := instances_nonempty_of_alignAt? h
  obtain ⟨q, o, rho, renamed, hk, hplaced, hrenamed, -, hcs, hlog, rfl⟩ :=
    Operation.placed_of_alignAt? hp hfree h
  have hlt := (List.getElem?_eq_some_iff.mp hk).1
  obtain ⟨ds, hds, rfl⟩ := apply_eq_some hrenamed
  have hlength : k < (p.prvs.map (·.apply rho)).length := by rwa [List.length_map]
  have hmem : t.prv ∈ (p.prvs.map (·.apply rho)).set k t.prv := List.mem_set hlength t.prv
  refine ⟨hcs, fun x => ⟨fun hx => ?_, fun hx => mem_logVars.mpr (.inl ⟨_, hmem, hx⟩)⟩, ?_⟩
  · rcases mem_logVars.mp hx with ⟨u, hu, hxu⟩ | hx
    · rcases List.mem_or_eq_of_mem_set hu with hu | rfl
      · exact (hlog x).mp (mem_logVars.mpr (.inl ⟨u, hu, hxu⟩))
      · exact hxu
    · exact (hlog x).mp (mem_logVars.mpr (.inr hx))
  · refine count_set_eq_one hlength fun j u hj hu => ?_
    rw [List.getElem?_map, Option.map_eq_some_iff] at hu
    obtain ⟨v, hv, rfl⟩ := hu
    exact apply_ne_of_disjoint hplaced.isRenaming hp (hcs ▸ hds) hne (List.mem_of_getElem? hv)
      (hothers j v hj hv)

/-! ## products and sums -/

theorem Spans.alongside (hp : Spans t p) (hq : Spans t q) : Alongside p q where
  constraints := hp.constraints.trans hq.constraints.symm
  logVars x := (hp.logVars x).trans (hq.logVars x).symm

theorem sameVars_iff {xs ys : List LogVar} (hx : xs.Nodup) (hy : ys.Nodup) :
    sameVars xs ys = true ↔ ∀ x, x ∈ xs ↔ x ∈ ys := by
  refine ⟨fun h => mem_iff_of_sameVars hx h, fun h => ?_⟩
  unfold sameVars
  rw [Bool.and_eq_true, beq_iff_eq, List.all_eq_true]
  exact ⟨((List.perm_ext_iff_of_nodup hx hy).mpr h).length_eq,
    fun x hx => decide_eq_true ((h x).mp hx)⟩

theorem Alongside.isMultipliable (h : Alongside p q) : p.isMultipliable q = true := by
  rw [Parfactor.isMultipliable, Bool.and_eq_true, beq_iff_eq]
  exact ⟨h.constraints, (sameVars_iff p.nodup_logVars q.nodup_logVars).mpr h.logVars⟩

/-- random variables that are there already are not added again -/
theorem count_unionPrvs {ps qs : List Prv} (h : v ∈ ps) :
    (unionPrvs ps qs).count v = ps.count v := by
  induction qs generalizing ps with
  | nil => rfl
  | cons q qs ih =>
    rw [unionPrvs_cons]
    split
    · exact ih h
    · rename_i hq
      have hnot : v ∉ [q] := fun hv => hq (List.mem_singleton.mp hv ▸ h)
      rw [ih (List.mem_append_left [q] h), List.count_append, List.count_eq_zero.mpr hnot,
        Nat.add_zero]

section
variable [Scalar K]

theorem errorsIn_multiply (h : Alongside p q) : ErrorsIn Error.Unguarded (p.multiply q) := by
  unfold multiply
  rw [h.isMultipliable]
  refine errorsIn_rebuild .overflow fun digits => ?_
  exact (Factor.errorsIn_entry .overflow .bounds _ _ _).bind fun _ _ =>
    (Factor.errorsIn_entry .overflow .bounds _ _ _).bind fun _ _ => .ok _

theorem Spans.multiply (hp : Spans t p) (h : p.multiply q = .ok r) : Spans t r := by
  have hrp := alongside_multiply h
  refine ⟨hrp.constraints.trans hp.constraints, fun x => (hrp.logVars x).trans (hp.logVars x), ?_⟩
  rw [(parts_multiply h).2, count_unionPrvs (List.count_pos_iff.mp (hp.once ▸ Nat.one_pos))]
  exact hp.once

theorem errorsIn_multiplyAll {ps : List (Parfactor K)} (hp : Spans t p)
    (hps : ∀ q ∈ ps, Spans t q) : ErrorsIn Error.Unguarded (Operation.multiplyAll p ps) := by
  induction ps generalizing p with
  | nil => exact .ok _
  | cons q ps ih =>
    unfold Operation.multiplyAll
    split
    · rename_i e he
      exact .error (errorsIn_multiply (hp.alongside (hps q List.mem_cons_self)) e he)
    · rename_i r hr
      exact ih (hp.multiply hr) fun u hu => hps u (List.mem_cons_of_mem _ hu)

theorem Spans.multiplyAll {ps : List (Parfactor K)} (hp : Spans t p)
    (h : Operation.multiplyAll p ps = .ok r) : Spans t r := by
  induction ps generalizing p with
  | nil =>
    cases h
    exact hp
  | cons q ps ih =>
    obtain ⟨u, hu, h⟩ := Operation.multiplyAll_ok h
    exact ih (hp.multiply hu) h

theorem errorsIn_sumFrom {f : Factor K} {sizes digits : List Nat} {i : Nat} {powered : K → K}
    {ws : List K} {n : Nat} {acc : K} :
    ErrorsIn Error.Unguarded (sumFrom f sizes i digits powered ws n acc) := by
  induction ws generalizing n acc with
  | nil => exact .ok _
  | cons w ws ih =>
    unfold sumFrom
    split
    · rename_i e he
      exact .error (Factor.errorsIn_entry .overflow .bounds _ _ _ e he)
    · exact ih

/-- **A random variable that occurs once** is summed out. -/
theorem errorsIn_sumOut (h : p.prvs.count v = 1) : ErrorsIn Error.Unguarded (p.sumOut v) := by
  obtain ⟨i, -, -, -, heq⟩ := sumOut_eq_rebuild h
  rw [heq]
  exact errorsIn_rebuild .overflow fun digits => errorsIn_sumFrom.bind fun _ _ => .ok _

end

end Parfactor

end LiftedElimination
