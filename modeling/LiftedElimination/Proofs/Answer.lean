import LiftedElimination.Proofs.Comparison
import LiftedElimination.Proofs.Joint
import LiftedElimination.Proofs.Progress
import LiftedElimination.Proofs.Structural

/-!
# The answer of a run

The operations of a run sum out one set of random variables after the other, or none at all, and what
is left in the end are kept random variables.  So the product of what is left is the sum of the
meaning of the start, over all assignments of the others, up to a constant: random variables that are
gone without having been summed out count with the number of their assignments, and numbers count
once for every grounding of the product.

* `Component.SingleEntry`   numbers stay numbers: `closed_singleEntry`;
* `Operation.sumsTo_run`    what an operation sums out, and that none of it is kept;
* `Marginal.hidden`         the ground random variables that a run may eliminate;
* `Marginal.Carries`        what a run carries along, and `Carries.run`;
* `Engine.exists_of_run`    where a run comes to its end;
* `Engine.answer_meaning`   **the answer is the sum over all hidden random variables**.
-/

namespace LiftedElimination

open Finset

/-! ## numbers -/

section
variable {K : Type}

namespace Parfactor

variable {p q : Parfactor K}

/-- without random variables there is one entry -/
def SingleEntry (p : Parfactor K) : Prop := p.isConstant = true → p.factor.size = 1

theorem singleEntry_of_mem {r : Prv} (h : r ∈ p.prvs) : p.SingleEntry := fun hp =>
  absurd (List.isEmpty_iff.mp hp) (List.ne_nil_of_mem h)

theorem singleEntry_rebuild {cs : ConstraintSet} {prvs : List Prv}
    {entry : List Nat → Except Error K} (h : rebuild cs prvs entry = .ok q) : q.SingleEntry := by
  obtain ⟨-, hprvs, hfactor⟩ := rebuild_ok h
  intro hq
  rw [(Factor.size_ofFn hfactor).1, ← hprvs, List.isEmpty_iff.mp hq]
  rfl

namespace SingleEntry

theorem apply (hp : p.SingleEntry) {s : Substitution} (h : p.apply s = some q) : q.SingleEntry := by
  obtain ⟨ds, -, rfl⟩ := apply_eq_some h
  exact fun hq => hp (List.isEmpty_iff.mpr (List.map_eq_nil_iff.mp (List.isEmpty_iff.mp hq)))

theorem simplifyRound (h : p.simplifyRound = .ok (some q)) : q.SingleEntry := by
  obtain ⟨i, f, hi, ⟨-, hdrop⟩ | ⟨-, a, -, rfl⟩⟩ := simplifyRound_ok h
  · exact singleEntry_rebuild hdrop
  · obtain ⟨hlt, -⟩ := List.getElem?_eq_some_iff.mp hi
    exact singleEntry_of_mem (List.mem_set hlt (.atom a))

theorem normalize (hp : p.SingleEntry) (h : p.normalize = .ok (some q)) : q.SingleEntry := by
  obtain ⟨g, hg, ⟨-, hr⟩ | ⟨r, t, u, rfl, ht, hu, hqu⟩⟩ := normalize_ok h
  · cases hr
  cases hqu
  have hground := (groundSingletons_ok (I := fun o => ∀ q, o = some q → q.SingleEntry)
    (fun _ _ _ => nofun) (fun p _ _ hp _ _ _ hr => (hp p rfl).apply hr)
    (fun _ hq => Option.some.inj hq ▸ hp) hg).1 r rfl
  have hsimple := (settle_ok (p := SingleEntry) (fun _ _ _ hab => simplifyRound hab) hground ht).1
  exact (settle_ok (p := SingleEntry) (fun _ _ _ hab => by
    obtain ⟨_, _, _, -, -, -, hmerge⟩ := mergeRound_ok hab
    exact singleEntry_rebuild hmerge) hsimple hu).1

end SingleEntry

end Parfactor

namespace Component

/-- a parfactor without random variables has one entry -/
def SingleEntry : Component K → Prop
  | standard p => p.SingleEntry
  | aggregation _ => True

variable [Scalar K]

/-- **Numbers stay numbers.** -/
theorem closed_singleEntry : Component.Closed (SingleEntry : Component K → Prop) where
  squared {c} hc := by
    cases c with
    | standard p => exact fun hp => (Factor.size_map _ _).trans (hc hp)
    | aggregation a => trivial
  normalize {c d} hc hd := by
    cases c with
    | standard p =>
      obtain ⟨o, ho, hod⟩ := map_ok hd
      obtain ⟨q, rfl, rfl⟩ := Option.map_eq_some_iff.mp hod
      exact Parfactor.SingleEntry.normalize hc ho
    | aggregation a =>
      obtain ⟨o, -, hod⟩ := map_ok hd
      obtain ⟨b, -, rfl⟩ := Option.map_eq_some_iff.mp hod
      trivial
  pieces {c l} hc hl d hd := by
    cases hl with
    | split h =>
      obtain ⟨-, hfragment, hresidual⟩ := Parfactor.split_ok h
      simp only [List.mem_cons, List.not_mem_nil, or_false] at hd
      rcases hd with rfl | rfl
      · exact Parfactor.SingleEntry.apply hc hfragment
      · rw [hresidual]
        exact hc
    | aggregationSplit h =>
      simp only [List.mem_cons, List.not_mem_nil, or_false] at hd
      rcases hd with rfl | rfl <;> trivial
    | expand h =>
      obtain ⟨_, -, -, ⟨-, hq⟩ | ⟨-, hq⟩⟩ := Parfactor.expand_ok h <;>
        exact List.mem_singleton.mp hd ▸ Parfactor.singleEntry_rebuild hq
    | convert h =>
      obtain ⟨p, hp, rfl⟩ := List.mem_map.mp hd
      exact fun hconst => absurd hconst
        (Bool.eq_false_iff.mp (Aggregation.isConstant_of_mem_toParfactors h hp))
  count _ hq := by
    obtain ⟨-, _, _, -, -, hr⟩ := Parfactor.count_ok hq
    exact Parfactor.singleEntry_rebuild hr
  multiply _ _ hr := Parfactor.singleEntry_rebuild (Parfactor.multiply_ok hr).2
  sumOut _ hr := by
    obtain ⟨_, -, -, -, hr⟩ := Parfactor.sumOut_ok hr
    exact Parfactor.singleEntry_rebuild hr

end Component

/-- a parfactor renamed to a set holds it -/
theorem Operation.singleEntry_aligned [Scalar K] {m : Marginal K} {s : PrvSet}
    {e : SetElimination K} (h : sumOut? m s = some e) : ∀ p ∈ e.aligned, p.SingleEntry := by
  intro p' hp'
  obtain ⟨-, p, k, -, -, halign, -⟩ := exists_of_mem_aligned h hp'
  obtain ⟨q, rho, renamed, hk, -, -, hrenamed, -, -, -, rfl⟩ := alignAt?_ok halign
  obtain ⟨ds, -, rfl⟩ := Parfactor.apply_eq_some hrenamed
  obtain ⟨hlt, -⟩ := List.getElem?_eq_some_iff.mp hk
  refine Parfactor.singleEntry_of_mem (List.mem_set (?_ : k < _) s.prv)
  rwa [List.length_map]

end

/-! ## what an operation sums out -/

variable {K : Type}

/-- what the search finds in a sound parfactor are groundings -/
theorem Parfactor.Sound.nonempty {p : Parfactor K} (hp : p.Sound)
    (h : p.constraints.satisfiable p.logVars = true) : p.solutions.Nonempty :=
  ConstraintSet.solutions_nonempty.mpr
    (ConstraintSet.exists_solves p.nodup_logVars (fun c hc _ => hp.satisfiable c hc) h)

namespace PrvSet

variable {p : Parfactor K} {q : Prv}

/-- the set of a random variable that mentions all logical variables has their groundings -/
theorem groundings_of (h : sameVars q.freeVars p.logVars = true) :
    (of q p.constraints).groundings = p.solutions := by
  show (of q p.constraints).constraints.solutions q.freeVars = p.solutions
  rw [of_constraints h,
    ConstraintSet.solutions_congr (Parfactor.mem_iff_of_sameVars q.nodup_freeVars h)]
  rfl

/-- forgetting constraints leaves all instances -/
theorem instances_subset_of (q : Prv) (cs : ConstraintSet) :
    q.instances cs ⊆ (of q cs).instances := by
  rintro g ⟨γ, hγ, rfl⟩
  refine ⟨γ, ⟨hγ.mem, fun c hc hv => hγ.holds c ?_ hv⟩, rfl⟩
  cases q with
  | atom a => exact (ConstraintSet.mem_restrictTo.mp hc).1
  | count f =>
    rcases SortedSet.mem_union.mp hc with hc | hc
    · exact SortedSet.mem_union.mpr (.inl (ConstraintSet.mem_restrictTo.mp hc).1)
    · exact SortedSet.mem_union.mpr (.inr hc)

end PrvSet

section
variable [ExactScalar K] {sig : Signature} {m m' m'' : Marginal K}

namespace Operation

/-- what a chosen elimination sums out consists of instances of its set -/
theorem atom_mem_of_owned (hm : ∀ c ∈ m.distribution.toList, c.Sound) {e : SetElimination K}
    (h : (sumOut e).Eligible m) {v : RandomVariable} (hv : v ∈ e.eliminated.owned) :
    v.atom ∈ e.eliminated.instances := by
  obtain ⟨-, p, hp, q, hq, hsame, hsum⟩ := h
  obtain ⟨pairs, -, -, rfl⟩ := sumOut?_ok hsum
  obtain ⟨γ, hγ, hv⟩ := mem_biUnion.mp hv
  rw [PrvSet.groundings_of hsame] at hγ
  obtain ⟨ε, hε, rfl, -⟩ := Parfactor.exists_instance (hm _ hp).proper hq hγ hv
  refine PrvSet.instances_subset_of q p.constraints ?_
  rw [← Extent.instances_of]
  exact ⟨ε, hε, by rw [Extent.of_atom]; rfl⟩

/-- **An elimination that is chosen** sums out its set, if the conditions hold. -/
theorem sumsTo_sumOut (hm : ∀ c ∈ m.distribution.toList, c.Sound) (hover : m.IsOver sig)
    {e : SetElimination K} (h : (sumOut e).Eligible m) (he : e.Sums)
    (hrun : runSumOut m e = .ok m') : m.SumsTo e.eliminated.owned m' := by
  obtain ⟨-, p, hp, q, hq, hsame, hsum⟩ := h
  have hsound : p.Sound := hm _ hp
  have hexact : ∀ γ ∈ (PrvSet.of q p.constraints).groundings, q.Exact γ := by
    rw [PrvSet.groundings_of hsame]
    exact fun γ hγ => hsound.exact γ hγ q hq
  have hsums := sumsTo_runSumOut hm hover (hsound.valid q hq) hexact (hover.1 _ hp q hq) hsum he hrun
  obtain ⟨pairs, -, -, rfl⟩ := sumOut?_ok hsum
  exact hsums

/-- **What an operation sums out** of sound components that have groundings: nothing that is kept. -/
theorem sumsTo_run {op : Operation K} (hm : ∀ c ∈ m.distribution.toList, c.Sound)
    (hsat : ∀ c ∈ m.distribution.toList, c.constraints.satisfiable c.logVars = true)
    (hover : m.IsOver sig) (hop : op.Eligible m)
    (hsums : ∀ e, op = sumOut e → e.Sums) (hrun : op.run m = .ok m') :
    ∃ s, m.SumsTo s m' ∧ ∀ v ∈ s, ∀ k ∈ m.kept, v.atom ∉ k.instances := by
  have hnone : m.SumsTo ∅ m' → ∃ s, m.SumsTo s m' ∧ ∀ v ∈ s, ∀ k ∈ m.kept, v.atom ∉ k.instances :=
    fun h => ⟨∅, h, fun v hv => absurd hv (notMem_empty v)⟩
  cases op with
  | convert a => exact hnone (sumsTo_runConvert hm (hsat _ hop) hrun)
  | shatter => exact hnone (Marginal.sumsTo_shatter hm hrun)
  | count p x =>
    have hne : ∀ p, .standard p ∈ m.distribution.toList → p.solutions.Nonempty := fun p hp =>
      Parfactor.Sound.nonempty (hm _ hp) (hsat _ hp)
    exact hnone (sumsTo_runCount hm hne hrun)
  | sumOut e =>
    refine ⟨_, sumsTo_sumOut hm hover hop (hsums e rfl) hrun, fun v hv k hk hvk => ?_⟩
    exact Set.disjoint_left.mp (disjoint_of_eligible hover hop k hk)
      (atom_mem_of_owned hm hop hv) hvk
  | expand p f => exact hnone (sumsTo_runExpand hm hrun)
  | ground p x => exact hnone (sumsTo_runGround hm hrun)

end Operation

/-! ## what a run carries along -/

namespace Marginal

open Classical in
/-- the ground random variables that are in no kept set, which a run may eliminate -/
noncomputable def hidden (m : Marginal K) : Finset RandomVariable :=
  m.scope.filter fun v => ∀ k ∈ m.kept, v.atom ∉ k.instances

theorem mem_hidden {v : RandomVariable} :
    v ∈ m.hidden ↔ v ∈ m.scope ∧ ∀ k ∈ m.kept, v.atom ∉ k.instances := by
  classical
  unfold hidden
  rw [mem_filter]

/-- **What a run from `m` carries along**: some hidden random variables have been summed out, and
what is left is fit for further operations. -/
structure Carries (sig : Signature) (m m' : Marginal K) : Prop where
  sumsTo : ∃ s ⊆ m.hidden, m.SumsTo s m'
  isOver : m'.IsOver sig
  satisfiable : ∀ c ∈ m'.distribution.toList, c.constraints.satisfiable c.logVars = true
  singleEntry : ∀ c ∈ m'.distribution.toList, c.SingleEntry

/-- **Every operation carries it along.** -/
theorem Carries.run {op : Operation K} (h : m.Carries sig m') (hop : op.Eligible m')
    (hsums : ∀ e, op = .sumOut e → e.Sums) (hrun : op.run m' = .ok m'') : m.Carries sig m'' := by
  obtain ⟨s, hs, hsum⟩ := h.sumsTo
  obtain ⟨t, ht, hnot⟩ :=
    Operation.sumsTo_run hsum.sound h.satisfiable h.isOver hop hsums hrun
  refine ⟨⟨s ∪ t, union_subset hs fun v hv => mem_hidden.mpr ⟨?_, ?_⟩, hsum.trans ht⟩,
    Operation.isOver_run h.isOver hop hrun, ?_, ?_⟩
  · exact (mem_sdiff.mp (hsum.scope (ht.subset hv))).1
  · exact hsum.kept ▸ hnot v hv
  · refine Operation.forall_run_of_normal (fun c hc => ?_) (fun c d hd => ?_) h.satisfiable hrun
    · cases c <;> exact hc
    · have hstable := Component.stable_of_normalize hd
      cases d with
      | standard p => exact Parfactor.Stable.grounded hstable |>.satisfiable
      | aggregation a => exact Grounded.satisfiable hstable
  · refine Component.closed_singleEntry.run h.singleEntry hop (fun e he => ?_) hrun
    subst he
    obtain ⟨-, p, -, q, -, -, hsum⟩ := hop
    exact Operation.singleEntry_aligned hsum

/-- once only kept sets are left, all ground random variables are kept -/
theorem exists_kept_of_isDone (hm : ∀ c ∈ m.distribution.toList, c.Sound) (h : m.isDone = true)
    {v : RandomVariable} (hv : v ∈ m.scope) : ∃ k ∈ m.kept, v.atom ∈ k.instances := by
  obtain ⟨c, hc, hv⟩ := mem_scopeOf.mp hv
  obtain ⟨q, hq, hinstance⟩ := Component.exists_instance (hm c hc) hv
  have hset : PrvSet.of q c.constraints ∈ c.prvSets := by
    cases c <;> exact List.mem_map_of_mem hq
  obtain ⟨k, hk, hwithin⟩ := List.any_eq_true.mp
    (List.all_eq_true.mp h _ (List.mem_flatMap.mpr ⟨c, hc, hset⟩))
  obtain ⟨r, hr⟩ := Extent.compare_of_isWithin hwithin
  refine ⟨k, hk, ?_⟩
  rw [Extent.instances_of] at hinstance
  have hsub := Extent.subset_of_compare (Extent.isClosed_of k.prv k.constraints) hr
  rw [Extent.ofSet, Extent.instances_of, Extent.instances_of] at hsub
  exact hsub (PrvSet.instances_subset_of q c.constraints hinstance)

end Marginal

end

/-! ## runs -/

namespace Engine

section
variable [Scalar K] {e f : Engine K}

/-- what every chosen operation keeps holds of all engines that a run goes through -/
theorem forall_of_reaches {I : Marginal K → Prop} (h : e.Reaches f) (he : I e.marginal)
    (hI : ∀ g, e.Reaches g → ∀ op m, (choose g.config g.marginal).outcome = .ok (some op) →
      op.run g.marginal = .ok m → I g.marginal → I m) : I f.marginal := by
  induction h with
  | refl e => exact he
  | step hstep _ ih =>
    obtain ⟨op, hop, hrun⟩ := step_applied hstep
    exact ih (hI _ (.refl _) op _ hop hrun he) fun g hg => hI g (.step hstep hg)

theorem step_done (h : e.step = (.ok .done, f)) :
    e.isDone = true ∧ f.marginal = e.marginal := by
  unfold step at h
  split at h
  · cases h
  · rename_i g hnext
    obtain ⟨hchoice, rfl⟩ := Prod.mk.inj hnext
    cases h
    exact ⟨isDone_of_choose hchoice, rfl⟩
  · unfold perform at h
    split at h
    · cases h
    · split at h <;> cases h

/-- **A run that succeeds** ends where nothing is left to choose. -/
theorem exists_of_run (h : e.run = (.ok (), f)) :
    ∃ g, e.Reaches g ∧ g.isDone = true ∧ f.marginal = g.marginal := by
  induction e using run.induct with
  | case1 e err g hstep =>
    rw [run_of_error hstep] at h
    cases h
  | case2 e g hstep =>
    rw [run_of_done hstep] at h
    cases h
    obtain ⟨hdone, hmarginal⟩ := step_done hstep
    exact ⟨e, .refl e, hdone, hmarginal⟩
  | case3 e kind cost g hstep _ ih =>
    rw [run_of_applied hstep] at h
    obtain ⟨t, ht, hdone, hmarginal⟩ := ih h
    exact ⟨t, .step hstep ht, hdone, hmarginal⟩

/-- the answer is the product of what is left in the end -/
theorem exists_of_answer {p : Parfactor K} (h : e.answer.1 = .ok p) :
    ∃ g, e.Reaches g ∧ g.isDone = true ∧ g.marginal.distribution.product = .ok p := by
  unfold answer at h
  split at h
  · cases h
  · rename_i f hrun
    obtain ⟨g, hg, hdone, hmarginal⟩ := exists_of_run hrun
    have hdone' : g.marginal.isDone = true := hdone
    rw [hmarginal, Marginal.answer, if_pos hdone'] at h
    exact ⟨g, hg, hdone, h⟩

end

end Engine

/-! ## the answer -/

theorem Component.satisfiable_of_nonempty {c : Component K} (h : c.solutions.Nonempty) :
    c.constraints.satisfiable c.logVars = true := by
  obtain ⟨γ, hγ⟩ := h
  cases c with
  | standard p =>
    exact ConstraintSet.satisfiable_of_solves p.nodup_logVars (ConstraintSet.solves_of_mem hγ)
  | aggregation a =>
    exact ConstraintSet.satisfiable_of_solves a.nodup_logVars (ConstraintSet.solves_of_mem hγ)

section
variable [ExactScalar K]

/-- the meaning of a number is the same in all worlds -/
theorem Distribution.meaningOf_constants {d : Distribution K} (hd : ∀ c ∈ d.toList, c.Sound)
    (w w' : World) : meaningOf d.constants w = meaningOf d.constants w' := by
  refine meaningOf_congr (fun c hc => hd c (List.mem_filter.mp hc).1) fun c hc v hv => ?_
  have hconst := (List.mem_filter.mp hc).2
  cases c with
  | standard p =>
    obtain ⟨γ, -, hv⟩ := Parfactor.mem_scope.mp hv
    obtain ⟨q, hq, -⟩ := Parfactor.mem_owned.mp hv
    rw [List.isEmpty_iff.mp hconst] at hq
    cases hq
  | aggregation a => cases hconst

/-- **The product is proportional** to the distribution, if there are groundings. -/
theorem Distribution.exists_factor [NoZeroDivisors K] [Nontrivial K] {d : Distribution K}
    {p : Parfactor K} (hd : d.Uniform) (hsingle : d.SingleEntries)
    (hsound : ∀ c ∈ d.toList, c.Sound)
    (hne : ∀ r, .standard r ∈ d.toList → r.solutions.Nonempty) (h : d.product = .ok p) :
    ∃ b : K, b ≠ 0 ∧ ∀ w : World, w.Legal (scopeOf d.toList) →
      p.meaning w = b * meaningOf d.toList w := by
  obtain ⟨n, hn⟩ := Nat.exists_eq_succ_of_ne_zero
    (nonempty_product hd hsingle hsound hne h).card_pos.ne'
  have hmeaning : ∀ w : World, w.Legal (scopeOf d.toList) →
      p.meaning w = meaningOf d.constants w ^ n * meaningOf d.toList w := by
    intro w hw
    rw [meaning_product hd hsingle hsound h hw, hn, ← meaningOf_filter_mul (·.isConstant) d.toList w,
      pow_succ, mul_left_comm]
    rfl
  by_cases hzero : meaningOf d.constants default = 0
  · refine ⟨1, one_ne_zero, fun w hw => ?_⟩
    have hw0 : meaningOf (d.toList.filter (·.isConstant)) w = 0 :=
      (meaningOf_constants hsound w default).trans hzero
    rw [hmeaning w hw, ← meaningOf_filter_mul (·.isConstant) d.toList w, hw0, mul_zero, mul_zero,
      mul_zero]
  · refine ⟨meaningOf d.constants default ^ n, pow_ne_zero n hzero, fun w hw => ?_⟩
    rw [hmeaning w hw, meaningOf_constants hsound w default]

variable {sig : Signature} {e : Engine K} {p : Parfactor K}

/-- **The answer of a run is the sum over everything that is hidden**, up to a constant factor.  The
builders have accepted the components, all formulas are exact, every argument position has one
population, and there are groundings and values.  Every elimination on the way is a summation, and
the product in the end is one of parts that fit together.  Then what the answer means in a world is
proportional to the sum of the meaning of the marginal over all assignments of the ground random
variables that are in no kept set. -/
theorem Engine.answer_meaning [NoZeroDivisors K] [CharZero K] (hm : e.marginal.Accepted)
    (hexact : e.marginal.Exact) (hover : e.marginal.IsOver sig)
    (hne : ∀ c ∈ e.marginal.distribution.toList, c.solutions.Nonempty)
    (hvalues : ∀ v ∈ e.marginal.hidden, 0 < v.range.size)
    (hsums : ∀ f, e.Reaches f → ∀ s,
      (choose f.config f.marginal).outcome = .ok (some (.sumOut s)) → s.Sums)
    (huniform : ∀ f, e.Reaches f → f.isDone = true → f.marginal.distribution.Uniform)
    (h : e.answer.1 = .ok p) :
    ∃ a b : K, a ≠ 0 ∧ b ≠ 0 ∧ ∀ w : World, w.Legal (e.marginal.scope \ e.marginal.hidden) →
      a * p.meaning w = b * ∑ u ∈ w.assignments e.marginal.hidden, e.marginal.meaning u := by
  have hsound := hm.sound hexact
  have hstart : e.marginal.Carries sig e.marginal :=
    ⟨⟨∅, empty_subset _, Marginal.sumsTo_empty rfl hsound Subset.rfl fun _ _ => rfl⟩, hover,
      fun c hc => Component.satisfiable_of_nonempty (hne c hc), fun c hc => by
        cases c with
        | standard q =>
          intro hconst
          have hq : q.Accepted := hm _ hc
          rw [hq.size_eq, Parfactor.sizes, List.isEmpty_iff.mp hconst]
          rfl
        | aggregation a => trivial⟩
  obtain ⟨f, hf, hdone, hproduct⟩ := exists_of_answer h
  have hcarries : e.marginal.Carries sig f.marginal := forall_of_reaches hf hstart
    fun g hg op m hop hrun hcarries => hcarries.run (eligible_of_choose hop)
      (fun s hs => hsums g hg s (hs ▸ hop)) hrun
  obtain ⟨s, hs, hsum⟩ := hcarries.sumsTo
  -- what is left is kept
  have hgone : Disjoint f.marginal.scope e.marginal.hidden := by
    refine disjoint_left.mpr fun v hv hhidden => ?_
    obtain ⟨k, hk, hvk⟩ := Marginal.exists_kept_of_isDone hsum.sound hdone hv
    exact (Marginal.mem_hidden.mp hhidden).2 k (hsum.kept ▸ hk) hvk
  have hscope : f.marginal.scope ⊆ e.marginal.scope \ e.marginal.hidden := fun v hv =>
    mem_sdiff.mpr ⟨(mem_sdiff.mp (hsum.scope hv)).1, disjoint_left.mp hgone hv⟩
  obtain ⟨b, hb, hproportional⟩ := Distribution.exists_factor (huniform f hf hdone)
    (fun q hq => hcarries.singleEntry _ hq) hsum.sound
    (fun q hq => Parfactor.Sound.nonempty (hsum.sound _ hq) (hcarries.satisfiable _ hq)) hproduct
  refine ⟨(∏ v ∈ e.marginal.hidden \ s, v.range.size : ℕ), b, ?_, hb, fun w hw => ?_⟩
  · exact Nat.cast_ne_zero.mpr (prod_ne_zero_iff.mpr fun v hv =>
      (hvalues v (mem_sdiff.mp hv).1).ne')
  · rw [hproportional w (hw.mono hscope), hsum.sum_above hs hgone hw, mul_left_comm]
    rfl

end

/-! ## the answer about the contagion -/

open scoped ExactScalar

namespace Epidemic

/-- the engine on the contagion after some steps -/
def spreading : Nat → Engine Nat
  | 0 => .start contagion .standard
  | i + 1 => (spreading i).step.2

/-- the sources of everybody are the only set that is summed out -/
theorem sums_spreading {e : Engine Nat} (he : (spreading 0).Reaches e) {s : SetElimination Nat}
    (hs : (Engine.choose e.config e.marginal).outcome = .ok (some (.sumOut s))) : s.Sums := by
  have hend : (spreading 1).step.1 = .ok .done := by decide +kernel
  obtain ⟨i, hi, rfl⟩ := Engine.exists_of_reaches spreading (fun _ => rfl)
    (fun kind cost h => by rw [hend] at h; cases h) (Nat.zero_le 1) he
  rcases Nat.le_one_iff_eq_zero_or_eq_one.mp hi with rfl | rfl
  · obtain ⟨-, p, hp, q, hq, hsame, hsum⟩ := Engine.eligible_of_choose hs
    obtain ⟨cs, qs, t⟩ := p
    obtain rfl : qs = _ := mem_prvs_contagion hp
    have hcs : ∀ c ∈ contagion.distribution.toList, c.constraints = ∅ := by decide +kernel
    obtain rfl : cs = ∅ := hcs _ hp
    rcases List.mem_cons.mp hq with rfl | hq
    · have hset : PrvSet.of (.count sources) ∅ = sourceSet := by decide
      exact sums_contagion (hset ▸ hsum)
    · obtain rfl := List.mem_singleton.mp hq
      cases hsame
  · have hnone : (Engine.choose (spreading 1).config (spreading 1).marginal).outcome.toOption.join.isNone
        = true := by
      decide +kernel
    rw [hs] at hnone
    cases hnone

/-- in the end there is a table for the epidemic -/
theorem parts_spreading : ∀ c ∈ (spreading 1).marginal.distribution.toList,
    ∃ t, c = .standard ⟨∅, [.atom epidemic], t⟩ := by
  have hall : ∀ c ∈ (spreading 1).marginal.distribution.toList,
      (c.prvs = [.atom epidemic] ∧ c.constraints = ∅) ∧ c.standard?.isSome = true := by
    decide +kernel
  intro c hc
  obtain ⟨⟨hprvs, hcs⟩, hstandard⟩ := hall c hc
  cases c with
  | standard p =>
    obtain ⟨cs, qs, t⟩ := p
    obtain rfl : qs = _ := hprvs
    obtain rfl : cs = _ := hcs
    exact ⟨t, rfl⟩
  | aggregation a => cases hstandard

/-- tables for the epidemic fit together -/
theorem uniform_spreading {e : Engine Nat} (he : (spreading 0).Reaches e) (hdone : e.isDone = true) :
    e.marginal.distribution.Uniform := by
  have hend : (spreading 1).step.1 = .ok .done := by decide +kernel
  obtain ⟨i, hi, rfl⟩ := Engine.exists_of_reaches spreading (fun _ => rfl)
    (fun kind cost h => by rw [hend] at h; cases h) (Nat.zero_le 1) he
  rcases Nat.le_one_iff_eq_zero_or_eq_one.mp hi with rfl | rfl
  · have hstart : (spreading 0).isDone = false := by decide +kernel
    rw [hstart] at hdone
    cases hdone
  · have hparts : ∀ p, (spreading 1).marginal.distribution.IsPart p →
        ∃ t, p = ⟨∅, [.atom epidemic], t⟩ := by
      rintro p ⟨c, hc, ps, hps, hp⟩
      obtain ⟨t, rfl⟩ := parts_spreading c hc
      cases hps
      exact ⟨t, List.mem_singleton.mp hp⟩
    refine ⟨fun p q hp hq _ _ => ?_, fun p hp hconst => ?_, fun p hp hconst => ?_, fun a ha => ?_⟩
    · obtain ⟨t, rfl⟩ := hparts p hp
      obtain ⟨u, rfl⟩ := hparts q hq
      exact ⟨rfl, fun f hf => by simp at hf⟩
    · obtain ⟨t, ht⟩ := parts_spreading _ hp
      cases ht
      cases hconst
    · obtain ⟨t, ht⟩ := parts_spreading _ hp
      cases ht
      cases hconst
    · obtain ⟨t, ht⟩ := parts_spreading _ ha
      cases ht

theorem standard_contagion : ∀ c ∈ contagion.distribution.toList, ∃ p, c = .standard p := by
  have hall : ∀ c ∈ contagion.distribution.toList, c.standard?.isSome = true := by decide +kernel
  intro c hc
  cases c with
  | standard p => exact ⟨p, rfl⟩
  | aggregation a => cases hall _ hc

theorem nonempty_contagion : ∀ c ∈ contagion.distribution.toList, c.solutions.Nonempty := by
  have hsat : ∀ c ∈ contagion.distribution.toList, c.constraints.satisfiable c.logVars = true := by
    decide +kernel
  intro c hc
  obtain ⟨p, rfl⟩ := standard_contagion c hc
  exact (accepted_contagion.sound exact_contagion (.standard p) hc).nonempty (hsat _ hc)

theorem values_contagion : ∀ v ∈ contagion.hidden, 0 < v.range.size := by
  intro v hv
  obtain ⟨c, hc, hv⟩ := mem_scopeOf.mp (Marginal.mem_hidden.mp hv).1
  obtain ⟨p, rfl⟩ := standard_contagion c hc
  obtain ⟨γ, -, hv⟩ := Parfactor.mem_scope.mp hv
  obtain ⟨q, hq, hv⟩ := Parfactor.mem_owned.mp hv
  rw [mem_prvs_contagion hc] at hq
  rcases List.mem_cons.mp hq with rfl | hq
  · obtain ⟨a, -, rfl⟩ := mem_image.mp hv
    rw [CountingFormula.range_member]
    decide
  · obtain rfl := List.mem_singleton.mp hq
    rw [mem_singleton.mp hv]
    exact (by decide : 0 < epidemic.range.size)

end Epidemic

theorem Epidemic.answer_meaning_contagion : ∃ p, (Engine.start contagion .standard).answer.1 = .ok p
    ∧ ∃ a b : Nat, a ≠ 0 ∧ b ≠ 0 ∧ ∀ w : World, w.Legal (contagion.scope \ contagion.hidden) →
      a * p.meaning w = b * ∑ u ∈ w.assignments contagion.hidden, contagion.meaning u := by
  cases h : (spreading 0).answer.1 with
  | error err =>
    have hok : (spreading 0).answer.1.isOk = true := by decide +kernel
    rw [h] at hok
    cases hok
  | ok p =>
    exact ⟨p, h, Engine.answer_meaning (e := spreading 0) accepted_contagion exact_contagion
      isOver_contagion nonempty_contagion values_contagion
      (fun _ he _ hs => sums_spreading he hs) (fun _ he hdone => uniform_spreading he hdone) h⟩

end LiftedElimination
