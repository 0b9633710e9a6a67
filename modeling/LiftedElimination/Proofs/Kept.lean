import LiftedElimination.Proofs.Inherited
import LiftedElimination.Proofs.Idempotence

/-!
# Kept random variables are never eliminated

An elimination is only asked not to take place inside a kept set.  That is enough, for the engine
eliminates from shattered marginals only, and only sets of random variables that mention all logical
variables of their parfactor.  The comparison with the kept sets then is the one that shattering
makes, and what it does not find inside a kept set it finds outside.

* `PrvSet.of_constraints`      such a set keeps all constraints of the parfactor;
* `Operation.disjoint_of_eligible`   an elimination is disjoint from all kept sets;
* `Operation.kept_run`        operations leave the kept sets alone;
* `Engine.sumOut_disjoint_kept`   no ground atom of a kept set is ever eliminated.
-/

namespace LiftedElimination

variable {K : Type}

/-! ## eliminations -/

/-- a random variable that mentions all logical variables keeps all constraints -/
theorem PrvSet.of_constraints {p : Parfactor K} {q : Prv}
    (h : sameVars q.freeVars p.logVars = true) :
    (PrvSet.of q p.constraints).constraints = p.constraints := by
  refine SortedSet.ext_mem fun c => ConstraintSet.mem_restrictTo.trans ⟨And.left, fun hc => ?_⟩
  refine ⟨hc, fun x hx => (Parfactor.mem_iff_of_sameVars q.nodup_freeVars h x).mpr ?_⟩
  exact Parfactor.mem_logVars.mpr (.inr (ConstraintSet.mem_variables.mpr ⟨c, hc, hx⟩))

section
variable [Scalar K] {sig : Signature} {m m' : Marginal K}

/-- **What is chosen for elimination is disjoint from all kept sets.** -/
theorem Operation.disjoint_of_eligible (hover : m.IsOver sig) {e : SetElimination K}
    (h : (sumOut e).Eligible m) :
    ∀ k ∈ m.kept, Disjoint e.eliminated.instances k.instances := by
  obtain ⟨hm, p, hp, q, hq, hsame, hsum⟩ := h
  obtain ⟨pairs, -, hkeeps, rfl⟩ := sumOut?_ok hsum
  have hset : Extent.ofSet (.of q p.constraints) = .of q p.constraints :=
    congrArg (Extent.of q) (PrvSet.of_constraints hsame)
  intro k hk
  have hnext := Marginal.nextAction_of_isShattered hm
  rcases (nextAction_eq_none_iff.mp hnext).2.2 (.of q p.constraints)
    (List.mem_flatMap.mpr ⟨_, hp, List.mem_map_of_mem hq⟩) k hk with hdisjoint | ⟨r, hinside⟩
  · rw [← hset] at hdisjoint
    exact disjoint_instances_of_compare (hover.1 _ hp q hq) (hover.2 k hk) hdisjoint
  · -- inside of a kept set nothing is eliminated
    have hwithin : (Extent.ofSet (.of q p.constraints)).isWithin (.ofSet k) = true := by
      rw [hset, Extent.isWithin, hinside]
    have hkept : m.keeps (.of q p.constraints) = true := List.any_eq_true.mpr ⟨k, hk, hwithin⟩
    rw [hkeeps] at hkept
    cases hkept

/-! ## the kept sets -/

theorem Marginal.kept_shatter (h : m.shatter = .ok m') : m'.kept = m.kept := by
  obtain ⟨cs, -, h⟩ := bind_ok h
  obtain ⟨ds, -, h⟩ := bind_ok h
  cases h
  rfl

/-- **No operation changes the kept sets.** -/
theorem Operation.kept_run {op : Operation K} (h : op.run m = .ok m') : m'.kept = m.kept := by
  cases op with
  | convert a =>
    obtain ⟨d, ps, l, -, -, -, rfl⟩ := runConvert_ok h
    rfl
  | shatter => exact Marginal.kept_shatter h
  | count p x =>
    obtain ⟨counted, d, l, -, -, -, rfl⟩ := runCount_ok h
    rfl
  | sumOut e =>
    obtain ⟨p, ps, product, summed, d, l, -, -, -, -, -, rfl⟩ := runSumOut_ok h
    rfl
  | expand p f =>
    obtain ⟨expanded, d, l, -, -, -, h⟩ := runExpand_ok h
    exact (Marginal.kept_shatter h :)
  | ground p x =>
    obtain ⟨pieces, d, -, -, h⟩ := runGround_ok h
    exact (Marginal.kept_shatter h :)

/-- populations survive every operation -/
theorem Operation.isOver_run {op : Operation K} (hover : m.IsOver sig) (hop : op.Eligible m)
    (h : op.run m = .ok m') : m'.IsOver sig := by
  refine ⟨fun c hc => Component.isOver_iff.mpr ?_, ?_⟩
  · exact (hereditary_isOver sig).run (fun c hc => Component.isOver_iff.mp (hover.1 c hc)) hop h c hc
  · rw [kept_run h]
    exact hover.2

/-- **Kept random variables are never eliminated.**  On every run from a marginal that uses one
population for every argument position, the kept sets stay as they are, whatever operation is run,
and no set that the engine chooses to sum out has a ground atom in common with any of them. -/
theorem Engine.sumOut_disjoint_kept {es : Nat → Engine K} {n : Nat}
    (hover : (es 0).marginal.IsOver sig)
    (hsteps : ∀ i < n, ∃ kind cost, (es i).step = (.ok (.applied kind cost), es (i + 1))) :
    ∀ i ≤ n, (es i).marginal.kept = (es 0).marginal.kept
      ∧ (∀ (op : Operation K) m, op.run (es i).marginal = .ok m → m.kept = (es 0).marginal.kept)
      ∧ ∀ e, (es i).next.1 = .ok (some (.sumOut e)) →
        ∀ k ∈ (es 0).marginal.kept, Disjoint e.eliminated.instances k.instances := by
  have hrun := Engine.forall_of_steps (I := fun m => m.kept = (es 0).marginal.kept
      ∧ m.IsOver sig) ⟨rfl, hover⟩ hsteps
    fun i _ op m _ hop hm ⟨hkept, hover⟩ =>
      ⟨(Operation.kept_run hm).trans hkept, Operation.isOver_run hover hop hm⟩
  intro i hi
  obtain ⟨hkept, hover⟩ := hrun i hi
  refine ⟨hkept, fun op m hm => (Operation.kept_run hm).trans hkept, fun e he k hk => ?_⟩
  exact Operation.disjoint_of_eligible hover (Engine.eligible_of_choose he) k (hkept ▸ hk)

end

/-! ## the counted epidemic -/

open scoped ExactScalar

namespace Epidemic

/-- the epidemic itself is kept, whatever is eliminated -/
theorem sumOut_disjoint_kept_counted : (engine 0).marginal.IsOver (fun _ _ => people)
    ∧ (∀ i < 7, ∃ kind cost, (engine i).step = (.ok (.applied kind cost), engine (i + 1)))
    ∧ ∃ e, (engine 2).next.1 = .ok (some (.sumOut e))
      ∧ ∀ k ∈ (engine 0).marginal.kept, Disjoint e.eliminated.instances k.instances := by
  have hvars : ∀ c ∈ (engine 0).marginal.distribution.toList, ∀ q ∈ c.prvs,
      ∀ x ∈ q.base.variables, x.population = people := by decide +kernel
  have hkept : ∀ k ∈ (engine 0).marginal.kept, ∀ x ∈ k.prv.base.variables,
      x.population = people := by decide
  have hover : (engine 0).marginal.IsOver fun _ _ => people :=
    ⟨fun c hc q hq => Atom.isOver_of_forall (hvars c hc q hq),
      fun k hk => Atom.isOver_of_forall (hkept k hk)⟩
  refine ⟨hover, engine_steps, ?_⟩
  have hkind : (engine 2).next.1.toOption.join.map Operation.kind = some .globalSumOut := by
    decide +kernel
  have hrun := (Engine.sumOut_disjoint_kept hover engine_steps 2 (by omega)).2.2
  match hop : (engine 2).next.1 with
  | .ok (some (.sumOut e)) => exact ⟨e, rfl, hrun e hop⟩
  | .ok (some (.convert _)) | .ok (some .shatter) | .ok (some (.count _ _))
  | .ok (some (.expand _ _)) | .ok (some (.ground _ _)) | .ok none | .error _ =>
    rw [hop] at hkind
    cases hkind

end Epidemic

end LiftedElimination
