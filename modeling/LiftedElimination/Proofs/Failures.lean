import LiftedElimination.Proofs.Spanning

/-!
# What an operation can fail with

Nothing that the engine has chosen is refused: what an operation takes out of the distribution is
there, and the parfactors on the way have what the next step asks for.  What is left are the errors
that nothing asks for beforehand, and the result is a marginal of normal forms again.

* `Operation.stable_run`     every component is a normal form;
* `Operation.ready_run`      and belongs to the schema;
* `Operation.errorsIn_runSumOut`, .., `errorsIn_runGround`   one operation;
* `Operation.errorsIn_run`   **an operation that is chosen** meets only errors without a guard.
-/

namespace LiftedElimination

open Finset

variable {K : Type} [Scalar K] {s : Schema} {m m' : Marginal K}

namespace Operation

/-! ## what is taken out -/

theorem errorsIn_remove {P : Error → Prop} {d : Distribution K} {c : Component K}
    (hc : c ∈ d.toList) : ErrorsIn P (remove d c) := by
  have hcontains : d.contains c = true :=
    List.any_eq_true.mpr ⟨c, hc, beq_iff_eq.mpr Std.ReflCmp.compare_self⟩
  rw [remove, if_pos hcontains]
  exact .ok _

theorem errorsIn_removeAll {P : Error → Prop} {d : Distribution K} {cs : List (Component K)}
    (hcs : cs.Pairwise fun a b => compare a b = .lt) (hmem : ∀ c ∈ cs, c ∈ d.toList) :
    ErrorsIn P (removeAll d cs) := by
  induction cs generalizing d with
  | nil => exact .ok _
  | cons c cs ih =>
    unfold removeAll
    split
    · rename_i e he
      exact .error (errorsIn_remove (hmem c List.mem_cons_self) e he)
    · rename_i d' hd
      obtain rfl := remove_ok hd
      obtain ⟨hfirst, hrest⟩ := List.pairwise_cons.mp hcs
      -- the others come later in the order, so they are still there
      exact ih hrest fun b hb => List.mem_filter.mpr
        ⟨hmem b (List.mem_cons_of_mem _ hb), by rw [hfirst b hb]; rfl⟩

omit [Scalar K] in
theorem errorsIn_normalForms {ps : List (Parfactor K)} (hps : ∀ p ∈ ps, p.Proper) :
    ErrorsIn Error.Unguarded (normalForms ps) :=
  (ErrorsIn.collect fun p hp => Parfactor.errorsIn_normalize .overflow .bounds (hps p hp)).bind
    fun _ _ => .ok _

/-! ## normal forms -/

/-- **Every operation leaves normal forms.** -/
theorem stable_run {op : Operation K} (hm : ∀ c ∈ m.distribution.toList, c.Stable)
    (hrun : op.run m = .ok m') : ∀ c ∈ m'.distribution.toList, c.Stable :=
  forall_run_of_normal (fun _ hc => hc.squared) (fun _ _ h => Component.stable_of_normalize h) hm hrun

/-! ## the parfactors of an elimination -/

/-- the components that take part, and what their other random variables have to do with the set -/
theorem exists_of_mem_aligned {t : PrvSet} {e : SetElimination K} {p' : Parfactor K}
    (h : sumOut? m t = some e) (hp' : p' ∈ e.aligned) : e.eliminated = t
      ∧ ∃ p k, .standard p ∈ m.distribution.toList ∧ .standard p ∈ e.involved
        ∧ alignAt? t p k = some p' ∧ ∀ j q, j ≠ k → p.prvs[j]? = some q →
          (Extent.of q p.constraints).compare (.ofSet t) = .disjoint := by
  obtain ⟨pairs, hpairs, -, rfl⟩ := sumOut?_ok h
  obtain ⟨y, hy, rfl⟩ := List.mem_map.mp hp'
  obtain ⟨p, k, hp, hmem, hhits, halign⟩ := (alignAll?_ok hpairs).2 y hy
  refine ⟨rfl, p, k, hp ▸ hmem, hp ▸ List.mem_map_of_mem hy, halign, fun j q hj hq => ?_⟩
  rw [hp] at hhits
  have hqj : (q, j) ∈ p.prvs.zipIdx := List.mem_zipIdx_iff_getElem?.mpr hq
  refine ((hits?_ok hhits).2 (q, j) hqj).resolve_right fun h => hj ?_
  cases h
  rfl

variable {e : SetElimination K}

/-- **The renamed parfactors span the set.** -/
theorem spans_aligned (hm : m.Ready s) (he : (sumOut e).Eligible m) (hfree : e.CaptureFree) :
    ∀ p ∈ e.aligned, p.Spans e.eliminated := by
  obtain ⟨-, p₀, hp₀, q₀, hq₀, -, hsum⟩ := he
  intro p' hp'
  obtain ⟨heq, p, k, hp, hinvolved, halign, hothers⟩ := exists_of_mem_aligned hsum hp'
  rw [heq]
  exact Parfactor.spans_of_alignAt? (hm.components _ hp).regular.proper
    (fun f hf => heq ▸ hfree _ hinvolved _ hf f rfl) hothers halign

/-- **The renamed parfactors are of the schema.** -/
theorem regular_aligned (hm : m.Ready s) (he : (sumOut e).Eligible m) (hfree : e.CaptureFree) :
    ∀ p ∈ e.aligned, (Component.standard p).Regular s := by
  intro p' hp'
  have hmeets := (hereditary_follows s).aligned (fun c hc => (hm.components c hc).regular.toMeets) he
    p' hp'
  obtain ⟨-, p₀, hp₀, q₀, hq₀, -, hsum⟩ := he
  obtain ⟨heq, p, k, hp, hinvolved, halign, -⟩ := exists_of_mem_aligned hsum hp'
  refine ⟨hmeets, Parfactor.proper_alignAt? (hm.components _ hp).regular.proper
    (Parfactor.Proper.valid (hm.components _ hp₀).regular.proper q₀ hq₀) (fun f hf => ?_) halign⟩
  exact heq ▸ hfree _ hinvolved _ hf f rfl

/-! ## every operation -/

/-- **Every operation leaves a marginal of normal forms of the schema.** -/
theorem ready_run {op : Operation K} (hm : m.Ready s) (hop : op.Eligible m)
    (hfree : op.CaptureFree) (hrun : op.run m = .ok m') : m'.Ready s := by
  have hregular := (Component.closed_regular s).run (fun c hc => (hm.components c hc).regular) hop
    (fun e he => regular_aligned hm (he ▸ hop) (show (sumOut e).CaptureFree from he ▸ hfree)) hrun
  have hstable := stable_run (fun c hc => (hm.components c hc).stable) hrun
  exact ⟨fun c hc => ⟨hregular c hc, hstable c hc⟩, kept_run hrun ▸ hm.kept⟩

theorem errorsIn_runSumOut (hm : m.Ready s) (he : (sumOut e).Eligible m) (hfree : e.CaptureFree) :
    ErrorsIn Error.Unguarded (runSumOut m e) := by
  have hspans := spans_aligned hm he hfree
  have hregular := regular_aligned hm he hfree
  obtain ⟨-, p₀, hp₀, q₀, hq₀, -, hsum⟩ := he
  obtain ⟨pairs, hpairs, -, hsome⟩ := sumOut?_ok hsum
  unfold runSumOut
  split
  · rename_i hnil
    exact absurd hnil (aligned_ne_nil hsum)
  · rename_i p ps heq
    rw [heq] at hspans hregular
    refine (Parfactor.errorsIn_multiplyAll (hspans p List.mem_cons_self) fun q hq =>
      hspans q (List.mem_cons_of_mem _ hq)).bind fun product hproduct => ?_
    have hproduct' := (hspans p List.mem_cons_self).multiplyAll hproduct
    refine (Parfactor.errorsIn_sumOut hproduct'.once).bind fun summed hsummed => ?_
    have hsub := sublist_of_alignAll? hpairs
    have hclosed := Component.closed_regular (K := K) s
    have hresult := hclosed.sumOut (hclosed.multiplyAll (hregular p List.mem_cons_self)
      (fun q hq => hregular q (List.mem_cons_of_mem _ hq)) hproduct) hsummed
    rw [show e.involved = pairs.map Prod.fst from hsome ▸ rfl]
    refine (errorsIn_removeAll (m.distribution.components.increasing.sublist hsub)
      fun c hc => hsub.subset hc).bind fun d _ => ?_
    exact (errorsIn_normalForms fun q hq => List.mem_singleton.mp hq ▸ hresult.proper).bind
      fun _ _ => .ok _

theorem errorsIn_runConvert {a : Aggregation K} (hm : m.Ready s)
    (ha : .aggregation a ∈ m.distribution.toList) : ErrorsIn Error.Unguarded (runConvert m a) := by
  have hregular := hm.regular.components _ ha
  refine (errorsIn_remove ha).bind fun d _ =>
    (Aggregation.errorsIn_toParfactors hregular).bind fun ps hps => ?_
  have hpieces := (Component.closed_regular s).pieces hregular (.convert hps)
  exact (errorsIn_normalForms fun p hp => (hpieces _ (List.mem_map_of_mem hp)).proper).bind
    fun _ _ => .ok _

theorem errorsIn_runCount {p : Parfactor K} {x : LogVar} (hm : m.Ready s)
    (hp : .standard p ∈ m.distribution.toList) (hcountable : p.isCountable x = true) :
    ErrorsIn Error.Unguarded (runCount m p x) := by
  have hregular := hm.regular.components _ hp
  refine (Parfactor.errorsIn_count hregular hcountable).bind fun counted hcounted =>
    (errorsIn_remove hp).bind fun d _ => ?_
  have hresult := (Component.closed_regular s).count hregular hcounted
  exact (errorsIn_normalForms fun q hq => List.mem_singleton.mp hq ▸ hresult.proper).bind
    fun _ _ => .ok _

theorem errorsIn_runExpand {p : Parfactor K} {f : CountingFormula} (hm : m.Ready s)
    (hp : .standard p ∈ m.distribution.toList) (hf : .count f ∈ p.prvs)
    (hexcluded : f.excludedVars = []) : ErrorsIn Error.Unguarded (runExpand m p f) := by
  have hregular := hm.regular.components
  have hclosed := Component.closed_regular (K := K) s
  refine (Parfactor.errorsIn_expandAll (Population.nodup_domain _ _) fun g hg => ?_).bind
    fun expanded hexpanded => (errorsIn_remove hp).bind fun d hd => ?_
  · cases hg
    exact ⟨hf, hexcluded, fun c hc => hc⟩
  have hresult := hclosed.expandAll (hregular _ hp) hexpanded
  refine (errorsIn_normalForms fun q hq => List.mem_singleton.mp hq ▸ hresult.proper).bind
    fun l hl => Marginal.errorsIn_shatter ⟨?_, hm.kept⟩
  exact hclosed.replace hregular
    (hclosed.normalForms (fun q hq => List.mem_singleton.mp hq ▸ hresult) hl) hd

/-- nothing is left to split off in a shattered marginal, so there is room for all individuals -/
theorem groundable_of_isShattered {p : Parfactor K} {x : LogVar} (hm : m.Ready s)
    (hp : .standard p ∈ m.distribution.toList) (hshattered : m.isShattered = .ok true) :
    p.Groundable x (x.domain p.constraints).individuals := by
  refine ⟨fun c hc => hc, fun hlength => ?_⟩
  have hcard := List.toFinset_card_of_nodup (Population.nodup_domain x p.constraints)
  obtain ⟨a, ha, b, hb, hab⟩ := one_lt_card.mp (hcard.symm ▸ hlength)
  have hviolation :=
    (nextAction_eq_none_iff.mp (Marginal.nextAction_of_isShattered hshattered)).1 _ hp
  exact Parfactor.roomy_of_violation? (hm.regular.components _ hp) hviolation hab
    (List.mem_toFinset.mp ha) (List.mem_toFinset.mp hb)

theorem errorsIn_runGround {p : Parfactor K} {x : LogVar} (hm : m.Ready s)
    (hp : .standard p ∈ m.distribution.toList) (hshattered : m.isShattered = .ok true) :
    ErrorsIn Error.Unguarded (runGround m p x) := by
  have hregular := hm.regular.components
  have hclosed := Component.closed_regular (K := K) s
  have hstart : ∀ q ∈ some p, (Component.standard q).Regular s
      ∧ q.Groundable x (x.domain p.constraints).individuals := by
    intro q hq
    cases hq
    exact ⟨hregular _ hp, groundable_of_isShattered hm hp hshattered⟩
  refine (Parfactor.errorsIn_groundAll (Population.nodup_domain _ _) hstart).bind
    fun pieces hpieces => (errorsIn_remove hp).bind fun d hd =>
      Marginal.errorsIn_shatter ⟨?_, hm.kept⟩
  refine hclosed.replace hregular (fun c hc => ?_) hd
  obtain ⟨q, hq, rfl⟩ := List.mem_map.mp hc
  exact hclosed.groundAll (fun r hr => Option.some.inj hr ▸ hregular _ hp) hpieces q hq

/-- **An operation that is chosen** meets only errors without a guard. -/
theorem errorsIn_run {op : Operation K} (hm : m.Ready s) (hop : op.Eligible m)
    (hfree : op.CaptureFree) : ErrorsIn Error.Unguarded (op.run m) := by
  cases op with
  | convert a => exact errorsIn_runConvert hm hop
  | shatter => exact Marginal.errorsIn_shatter hm.regular
  | count p x => exact errorsIn_runCount hm hop.1 hop.2.1
  | sumOut e => exact errorsIn_runSumOut hm hop hfree
  | expand p f => exact errorsIn_runExpand hm hop.1 hop.2.1 hop.2.2.1
  | ground p x => exact errorsIn_runGround hm hop.1 hop.2.2

end Operation

end LiftedElimination
