import LiftedElimination.Proofs.Failures

/-!
# Elimination never stalls

A shattered marginal in which something is left to eliminate always has a candidate: a logical
variable can be grounded, a formula without logical variables beside it can be expanded, and once
all random variables are ground atoms any of them that is not kept can be summed out.  With the
errors of single operations this settles what a whole run can end with.

* `Extent.compare_ground`        ground atoms are identical or disjoint;
* `Operation.exists_sumOut?`     one that is not kept can be summed out of ground parfactors;
* `Operation.exists_candidate`   something can always be done;
* `Engine.errorsIn_choose`       the choice fails with errors without a guard only;
* `Engine.Reaches`               the engines that a run goes through;
* `Engine.run_finishes`          what a whole run ends with.
-/

namespace LiftedElimination

variable {K : Type} {s : Schema}

theorem ConstraintSet.eq_empty {cs : ConstraintSet} (h : ∀ c, c ∉ cs) : cs = ∅ :=
  SortedSet.toList_inj.mp (List.eq_nil_iff_forall_not_mem.mpr h)

/-- every constraint mentions a variable -/
theorem ConstraintSet.restrictTo_nil (cs : ConstraintSet) : cs.restrictTo [] = ∅ :=
  eq_empty fun c hc => absurd ((mem_restrictTo.mp hc).2 c.first (Constraint.mem_variables.mpr (.inl rfl)))
    List.not_mem_nil

/-! ## ground atoms -/

namespace Atom

variable {a b : Atom}

/-- the atom has no variables -/
def IsGround (a : Atom) : Prop := a.variables = []

theorem IsGround.terms_eq (h : a.IsGround) (γ : Valuation) :
    a.terms = (a.ground γ).args.map .const := by
  unfold ground
  rw [List.map_map]
  refine (List.map_id _).symm.trans (List.map_congr_left fun t ht => ?_)
  cases t with
  | var x =>
    have hx : x ∈ a.variables := mem_variables.mpr ht
    rw [h] at hx
    exact absurd hx List.not_mem_nil
  | const c => rfl

/-- a ground atom of the schema is known by its instance -/
theorem IsGround.eq (ha : a.IsGround) (hb : b.IsGround) (has : a.Follows s) (hbs : b.Follows s)
    {γ δ : Valuation} (h : a.ground γ = b.ground δ) : a = b := by
  have hfunctor : a.functor = b.functor := congrArg GroundAtom.functor h
  have hterms : a.terms = b.terms := by rw [ha.terms_eq γ, hb.terms_eq δ, h]
  have hrange : a.range = b.range := by rw [has.range, hbs.range, hfunctor]
  cases a
  cases b
  cases hfunctor
  cases hterms
  cases hrange
  rfl

end Atom

namespace Extent

variable {a b : Atom}

theorem of_ground (ha : a.IsGround) (cs : ConstraintSet) : of (.atom a) cs = ⟨a, ∅, none⟩ := by
  show (⟨a, cs.restrictTo a.variables, none⟩ : Extent) = _
  rw [show a.variables = [] from ha, cs.restrictTo_nil]

theorem isClosed_ground (a : Atom) : IsClosed ⟨a, ∅, none⟩ := fun _ hx =>
  absurd (ConstraintSet.mem_variables.mp hx) fun ⟨_, hc, _⟩ => absurd hc List.not_mem_nil

/-- **Ground atoms are identical or disjoint.** -/
theorem compare_ground (ha : a.IsGround) (hb : b.IsGround) (has : a.Follows s) (hbs : b.Follows s) :
    compare ⟨a, ∅, none⟩ ⟨b, ∅, none⟩ = if a = b then .overlapping none none else .disjoint := by
  have hca := isClosed_ground a
  have hcb := isClosed_ground b
  split
  · rename_i heq
    subst heq
    have hself : a.ground default ∈ instances ⟨a, ∅, none⟩ := by
      refine ⟨default, ⟨fun x hx => ?_, fun c hc => absurd hc List.not_mem_nil⟩, rfl⟩
      have hx : x ∈ a.variables := hx
      rw [ha] at hx
      exact absurd hx List.not_mem_nil
    cases hcompare : compare ⟨a, ∅, none⟩ ⟨a, ∅, none⟩ with
    | disjoint =>
      have hdisjoint := disjoint_of_overlap? has.isOver has.isOver hca hca
        (compare_eq_disjoint hcompare)
      exact absurd hself (Set.disjoint_left.mp hdisjoint hself)
    | overlapping l r =>
      have hinside := Inside.refl (b := ⟨a, ∅, none⟩) nofun
      obtain ⟨hl, hr⟩ := compare_eq_overlapping_iff hca hca nofun hcompare
      rw [hl.mpr ⟨_, hinside⟩, hr.mpr ⟨_, hinside⟩]
  · rename_i hne
    refine compare_eq_disjoint_iff.mpr (Option.eq_none_iff_forall_not_mem.mpr fun o ho => hne ?_)
    obtain ⟨g, ⟨γ, -, hγ⟩, δ, -, hδ⟩ := exists_common_of_overlap? hca hcb ho
    exact ha.eq hb has hbs (hγ.trans hδ.symm)

theorem renaming?_ground (ha : a.IsGround) (has : a.Follows s) :
    renaming? ⟨a, ∅, none⟩ ⟨a, ∅, none⟩ = some .identity := by
  have hcompare := compare_ground ha ha has has
  rw [if_pos rfl] at hcompare
  obtain ⟨o, ho, -, -⟩ := compare_eq_overlapping hcompare
  have hvars : o.right.atom.variables = [] := by
    refine List.eq_nil_iff_forall_not_mem.mpr fun z hz => ?_
    rw [(overlaps_of_overlap? ho).right] at hz
    obtain ⟨y, hy, -⟩ := Atom.mem_variables_apply.mp hz
    have hy : y ∈ a.variables := hy
    rw [ha] at hy
    exact absurd hy List.not_mem_nil
  rw [renaming?, hcompare, if_pos (by rfl), ho]
  dsimp only
  rw [hvars]
  rfl

end Extent

/-! ## ground parfactors -/

namespace Parfactor

/-- the random variables are ground atoms of the schema, each once -/
structure IsGround (s : Schema) (p : Parfactor K) : Prop where
  atoms : ∀ q ∈ p.prvs, ∃ a, q = .atom a ∧ a.IsGround ∧ a.Follows s
  constraints : p.constraints = ∅
  nodup : p.prvs.Nodup

variable {p : Parfactor K}

theorem IsGround.logVars_eq (h : p.IsGround s) : p.logVars = [] := by
  refine List.eq_nil_iff_forall_not_mem.mpr fun x hx => ?_
  rcases mem_logVars.mp hx with ⟨q, hq, hxq⟩ | hx
  · obtain ⟨a, rfl, ha, -⟩ := h.atoms q hq
    have hxa : x ∈ a.variables := hxq
    rw [ha] at hxa
    exact absurd hxa List.not_mem_nil
  · rw [h.constraints] at hx
    exact absurd hx List.not_mem_nil

theorem IsGround.apply_identity (h : p.IsGround s) : p.apply .identity = some p := by
  have hprvs : p.prvs.map (·.apply .identity) = p.prvs := by
    refine (List.map_congr_left fun q hq => ?_).trans (List.map_id _)
    obtain ⟨a, rfl, -, -⟩ := h.atoms q hq
    show Prv.atom (a.apply .identity) = .atom a
    rw [Atom.apply, show Substitution.identity.apply = id from funext Substitution.apply_identity,
      List.map_id]
  rw [apply, h.constraints, hprvs, show (∅ : ConstraintSet).apply .identity = some ∅ from rfl]
  exact congrArg some (by cases p; cases h.constraints; rfl)

end Parfactor

namespace Operation

variable {p : Parfactor K} {b : Atom}

/-- the place of a ground atom is found, if it is listed at most once -/
theorem hits?_ground {c : Component K} (hb : b.IsGround) (hbs : b.Follows s) {l : List (Prv × Nat)}
    (hl : ∀ x ∈ l, ∃ a, x.1 = .atom a ∧ a.IsGround ∧ a.Follows s) (hnodup : (l.map Prod.fst).Nodup)
    {hit : Option Nat} (hhit : hit ≠ none → .atom b ∉ l.map Prod.fst) :
    hits? c ⟨b, ∅, none⟩ l hit
      = some (hit.or ((l.find? fun x => x.1 = .atom b).map Prod.snd)) := by
  induction l generalizing hit with
  | nil =>
    rw [hits?]
    simp
  | cons x l ih =>
    obtain ⟨q, k⟩ := x
    obtain ⟨a, rfl, ha, has⟩ := hl (q, k) List.mem_cons_self
    have hrest := fun x hx => hl x (List.mem_cons_of_mem _ hx)
    obtain ⟨hnot, hnodup⟩ := List.nodup_cons.mp hnodup
    unfold hits?
    rw [Extent.of_ground ha, Extent.compare_ground ha hb has hbs]
    by_cases hab : a = b
    · subst hab
      obtain rfl : hit = none := by
        by_contra hne
        exact hhit hne List.mem_cons_self
      rw [if_pos rfl]
      dsimp only
      rw [ih hrest hnodup fun _ => hnot]
      simp
    · rw [if_neg hab]
      dsimp only
      rw [ih hrest hnodup fun hne hmem => hhit hne (List.mem_cons_of_mem _ hmem)]
      simp [hab]

variable [Scalar K]

omit [Scalar K] in
/-- ground parfactors need no renaming -/
theorem alignAt?_ground (hp : p.IsGround s) (hb : b.IsGround) (hbs : b.Follows s) {k : Nat}
    (hk : p.prvs[k]? = some (.atom b)) : ∃ p', alignAt? ⟨.atom b, ∅⟩ p k = some p' := by
  have hrenaming : (Extent.ofSet ⟨.atom b, ∅⟩).renaming? (.of (.atom b) ∅) = some .identity := by
    rw [Extent.ofSet, Extent.of_ground hb]
    exact Extent.renaming?_ground hb hbs
  have hsame : sameVars p.logVars b.variables = true := by
    rw [hp.logVars_eq, show b.variables = [] from hb]
    rfl
  refine ⟨p.replacePrv k (.atom b), ?_⟩
  simp [alignAt?, hk, Prv.freeVars, hsame, hrenaming, hp.apply_identity, Prv.sameFormula,
    hp.constraints]

/-- a ground parfactor takes part with a ground atom, or does not hold it -/
theorem involvement_ground (hp : p.IsGround s) (hb : b.IsGround) (hbs : b.Follows s) :
    (.atom b ∉ p.prvs ∧ involvement ⟨.atom b, ∅⟩ ⟨b, ∅, none⟩ (.standard p) = .untouched)
      ∨ ∃ p', involvement ⟨.atom b, ∅⟩ ⟨b, ∅, none⟩ (.standard p) = .aligned p' := by
  have hfst : p.prvs.zipIdx.map Prod.fst = p.prvs := by simp
  have hhits := hits?_ground (c := .standard p) hb hbs (l := p.prvs.zipIdx)
    (fun x hx => hp.atoms x.1 (hfst ▸ List.mem_map_of_mem hx)) (hfst.symm ▸ hp.nodup)
    (fun h => absurd rfl h)
  unfold involvement
  rw [show (Component.standard p).prvs = p.prvs from rfl, hhits]
  cases hfind : p.prvs.zipIdx.find? fun x => x.1 = .atom b with
  | none =>
    refine .inl ⟨fun hmem => ?_, rfl⟩
    rw [← hfst] at hmem
    obtain ⟨x, hx, hxb⟩ := List.mem_map.mp hmem
    exact List.find?_eq_none.mp hfind x hx (decide_eq_true hxb)
  | some x =>
    obtain ⟨q, k⟩ := x
    have hq : q = .atom b := by simpa using List.find?_some hfind
    have hk : p.prvs[k]? = some q :=
      List.mk_mem_zipIdx_iff_getElem?.mp (List.mem_of_find?_eq_some hfind)
    obtain ⟨p', hp'⟩ := alignAt?_ground hp hb hbs (hq ▸ hk)
    exact .inr ⟨p', by simp [hp']⟩

/-! ## candidates -/

/-- if no component stands in the way, all that hold the set take part -/
theorem exists_alignAll? {t : PrvSet} {target : Extent} {cs : List (Component K)}
    (h : ∀ c ∈ cs, involvement t target c = .untouched
      ∨ ∃ p', involvement t target c = .aligned p') :
    ∃ pairs, alignAll? t target cs = some pairs
      ∧ ∀ c ∈ cs, involvement t target c ≠ .untouched → pairs ≠ [] := by
  induction cs with
  | nil => exact ⟨[], rfl, fun c hc => absurd hc List.not_mem_nil⟩
  | cons c cs ih =>
    obtain ⟨pairs, hpairs, hne⟩ := ih fun b hb => h b (List.mem_cons_of_mem _ hb)
    unfold alignAll?
    rcases h c List.mem_cons_self with huntouched | ⟨p', hp'⟩
    · rw [huntouched]
      refine ⟨pairs, hpairs, fun b hb htouched => ?_⟩
      rcases List.mem_cons.mp hb with rfl | hb
      · exact absurd huntouched htouched
      · exact hne b hb htouched
    · rw [hp', hpairs]
      exact ⟨(c, p') :: pairs, rfl, fun _ _ _ => List.cons_ne_nil _ _⟩

variable {m : Marginal K}

/-- a ground atom that is not kept can be summed out of ground parfactors -/
theorem exists_sumOut? (hm : ∀ c ∈ m.distribution.toList, ∃ p, c = .standard p ∧ p.IsGround s)
    (hp : .standard p ∈ m.distribution.toList) (hb : .atom b ∈ p.prvs)
    (hkeeps : m.keeps ⟨.atom b, ∅⟩ = false) : ∃ e, sumOut? m ⟨.atom b, ∅⟩ = some e := by
  obtain ⟨p₀, heq, hground⟩ := hm _ hp
  cases heq
  obtain ⟨a, ha, hbground, hbs⟩ := hground.atoms _ hb
  cases ha
  have hinvolved : ∀ c ∈ m.distribution.toList,
      involvement ⟨.atom b, ∅⟩ ⟨b, ∅, none⟩ c = .untouched
        ∨ ∃ p', involvement ⟨.atom b, ∅⟩ ⟨b, ∅, none⟩ c = .aligned p' := by
    intro c hc
    obtain ⟨q, rfl, hq⟩ := hm c hc
    exact (involvement_ground hq hbground hbs).imp_left And.right
  obtain ⟨pairs, hpairs, hne⟩ := exists_alignAll? hinvolved
  have htouched : involvement ⟨.atom b, ∅⟩ ⟨b, ∅, none⟩ (.standard p) ≠ .untouched := by
    rcases involvement_ground hground hbground hbs with ⟨hnot, -⟩ | ⟨p', hp'⟩
    · exact absurd hb hnot
    · rw [hp']
      exact fun h => by cases h
  unfold sumOut?
  rw [hkeeps, Extent.ofSet, Extent.of_ground hbground, hpairs]
  cases pairs with
  | nil => exact absurd rfl (hne _ hp htouched)
  | cons x pairs => exact ⟨_, rfl⟩

theorem foldl_pushGroup_ne_nil {es out : List (SetElimination K)} (h : out ≠ [] ∨ es ≠ []) :
    es.foldl pushGroup out ≠ [] := by
  induction es generalizing out with
  | nil => exact h.resolve_right fun h => h rfl
  | cons e es ih =>
    refine ih (.inl ?_)
    unfold pushGroup
    split
    · rename_i hany
      rintro rfl
      cases hany
    · exact List.append_ne_nil_of_right_ne_nil _ (List.cons_ne_nil _ _)

theorem mem_parfactors {p : Parfactor K} (hp : .standard p ∈ m.distribution.toList) :
    p ∈ parfactors m := List.mem_filterMap.mpr ⟨_, hp, rfl⟩

theorem exists_standard_of_converts (h : converts m = []) {c : Component K}
    (hc : c ∈ m.distribution.toList) : ∃ p, c = .standard p := by
  cases c with
  | standard p => exact ⟨p, rfl⟩
  | aggregation a =>
    have ha : convert a ∈ converts m :=
      List.mem_map_of_mem (List.mem_filterMap.mpr ⟨_, hc, rfl⟩)
    rw [h] at ha
    exact absurd ha List.not_mem_nil

theorem grounds_ne_nil {p : Parfactor K} {x : LogVar}
    (hp : .standard p ∈ m.distribution.toList) (hx : x ∈ p.logVars) : grounds m ≠ [] := by
  refine List.ne_nil_of_mem (a := ground p x) ?_
  exact List.mem_flatMap.mpr ⟨p, mem_parfactors hp,
    List.mem_filterMap.mpr ⟨x, hx, by rw [ground?, if_pos hx]⟩⟩

theorem expands_ne_nil {p : Parfactor K} {f : CountingFormula}
    (hp : .standard p ∈ m.distribution.toList) (hstable : p.Stable) (hf : .count f ∈ p.prvs)
    (hexcluded : f.excludedVars = []) : expands m ≠ [] := by
  have hexpand : expand? p f = some (expand p f) := by
    simp [expand?, Parfactor.contains, hf, hexcluded, hstable.domainSize_pos hf]
  refine List.ne_nil_of_mem (a := expand p f) ?_
  exact List.mem_flatMap.mpr ⟨p, mem_parfactors hp,
    List.mem_filterMap.mpr ⟨f, List.mem_filterMap.mpr ⟨_, hf, rfl⟩, hexpand⟩⟩

omit [Scalar K] in
/-- what is left without logical variables and formulas are ground atoms -/
theorem isGround_of_no_logVars {p : Parfactor K} (hp : (Component.standard p).Ready s)
    (hnovar : ∀ x, x ∉ p.logVars) (hnone : ∀ f, .count f ∉ p.prvs) : p.IsGround s := by
  have hstable : p.Stable := hp.stable
  refine ⟨fun q hq => ?_, ConstraintSet.eq_empty fun k hk => ?_, hstable.nodup⟩
  · cases q with
    | atom a =>
      refine ⟨a, rfl, List.eq_nil_iff_forall_not_mem.mpr fun x hx => ?_, (hp.regular.prvs _ hq).base⟩
      exact hnovar x (Parfactor.mem_logVars.mpr (.inl ⟨_, hq, hx⟩))
    | count f => exact absurd hq (hnone f)
  · exact hnovar k.first (Parfactor.mem_logVars.mpr
      (.inr (ConstraintSet.mem_variables.mpr ⟨k, hk, Constraint.mem_variables.mpr (.inl rfl)⟩)))

/-- among ground atoms whatever is not kept can be summed out -/
theorem sumOuts_ne_nil (hm : ∀ c ∈ m.distribution.toList, ∃ p, c = .standard p ∧ p.IsGround s)
    {p : Parfactor K} (hp : .standard p ∈ m.distribution.toList) {q : Prv} (hq : q ∈ p.prvs)
    (hkeeps : m.keeps (.of q p.constraints) = false) : sumOuts m ≠ [] := by
  obtain ⟨p₀, heq, hground⟩ := hm _ hp
  cases heq
  obtain ⟨b, rfl, hb, -⟩ := hground.atoms q hq
  have hset : PrvSet.of (.atom b) p.constraints = ⟨.atom b, ∅⟩ := by
    rw [PrvSet.of, Prv.freeVars, show b.variables = [] from hb, ConstraintSet.restrictTo_nil]
  have ht : PrvSet.of (.atom b) p.constraints ∈ p.prvSets := List.mem_map_of_mem hq
  rw [hset] at hkeeps ht
  obtain ⟨e, he⟩ := exists_sumOut? hm hp hq hkeeps
  have hsame : sameVars b.variables p.logVars = true := by
    rw [hground.logVars_eq, show b.variables = [] from hb]
    rfl
  refine fun h => foldl_pushGroup_ne_nil (.inr (List.ne_nil_of_mem (a := e) ?_))
    (List.map_eq_nil_iff.mp h)
  exact List.mem_filterMap.mpr ⟨_, List.mem_flatMap.mpr ⟨p, mem_parfactors hp,
    List.mem_filter.mpr ⟨ht, hsame⟩⟩, he⟩

/-- **Something can be done** as long as random variables are left that are not kept. -/
theorem exists_candidate (hm : m.Ready s) (hconverts : converts m = [])
    (hdone : m.isDone = false) :
    sumOuts m ++ counts m ++ expands m ≠ [] ∨ grounds m ≠ [] := by
  obtain ⟨t, ht, hkeeps⟩ := List.all_eq_false.mp hdone
  obtain ⟨c, hc, ht⟩ := List.mem_flatMap.mp ht
  obtain ⟨p, rfl⟩ := exists_standard_of_converts hconverts hc
  obtain ⟨q, hq, rfl⟩ := List.mem_map.mp ht
  by_cases hvars : ∃ p x, .standard p ∈ m.distribution.toList ∧ x ∈ p.logVars
  · obtain ⟨p, x, hp, hx⟩ := hvars
    exact .inr (grounds_ne_nil hp hx)
  have hnovar : ∀ p x, .standard p ∈ m.distribution.toList → x ∉ p.logVars :=
    fun p x hp hx => hvars ⟨p, x, hp, hx⟩
  by_cases hformula : ∃ p f, .standard p ∈ m.distribution.toList ∧ .count f ∈ p.prvs
  · obtain ⟨p, f, hp, hf⟩ := hformula
    have hexcluded : f.excludedVars = [] := List.eq_nil_iff_forall_not_mem.mpr fun x hx =>
      hnovar p x hp (Parfactor.mem_logVars.mpr
        (.inl ⟨_, hf, CountingFormula.mem_freeVars.mpr (.inr hx)⟩))
    exact .inl (List.append_ne_nil_of_right_ne_nil _
      (expands_ne_nil hp (hm.components _ hp).stable hf hexcluded))
  -- all random variables are ground atoms
  have hground : ∀ c ∈ m.distribution.toList, ∃ p, c = .standard p ∧ p.IsGround s := by
    intro c hc
    obtain ⟨p, rfl⟩ := exists_standard_of_converts hconverts hc
    exact ⟨p, rfl, isGround_of_no_logVars (hm.components _ hc) (fun x => hnovar p x hc)
      fun f hf => hformula ⟨p, f, hc, hf⟩⟩
  exact .inl (List.append_ne_nil_of_left_ne_nil (List.append_ne_nil_of_left_ne_nil
    (sumOuts_ne_nil hground hc hq (Bool.eq_false_iff.mpr hkeeps)) _) _)

end Operation

/-! ## the engine -/

namespace Engine

variable [Scalar K]

theorem exists_cheapest? {ops : List (Operation K)} (h : ops ≠ []) :
    ∃ op, cheapest? ops = some op := by
  cases ops with
  | nil => exact absurd rfl h
  | cons op ops => exact ⟨_, rfl⟩

variable {c : EngineConfig} {m : Marginal K} {e f : Engine K}

/-- without a limit no candidate is rejected -/
theorem partition_admits (hc : c.maxFactorSize = none) (ops : List (Operation K)) :
    ops.partition (fun op => c.admits op.cost) = (ops, []) := by
  have hadmits : ∀ cost, c.admits cost = true := fun cost => by rw [EngineConfig.admits, hc]
  simp [List.partition_eq_filter_filter, hadmits]

theorem chooseCandidate_ok (hc : c.maxFactorSize = none)
    (h : Operation.sumOuts m ++ Operation.counts m ++ Operation.expands m ≠ []
      ∨ Operation.grounds m ≠ []) : ∃ op, (chooseCandidate c m).outcome = .ok (some op) := by
  unfold chooseCandidate
  rw [partition_admits hc, partition_admits hc]
  dsimp only
  cases hlifted : cheapest? (Operation.sumOuts m ++ Operation.counts m ++ Operation.expands m) with
  | some op => exact ⟨op, rfl⟩
  | none =>
    have hground : Operation.grounds m ≠ [] := by
      refine h.resolve_left fun hne => ?_
      obtain ⟨op, hop⟩ := exists_cheapest? hne
      rw [hlifted] at hop
      cases hop
    obtain ⟨op, hop⟩ := exists_cheapest? hground
    rw [hop]
    exact ⟨op, rfl⟩

/-- **The choice** without a limit for the size of tables never fails for want of an operation. -/
theorem errorsIn_choose (hc : c.maxFactorSize = none) (hm : m.Ready s) :
    ErrorsIn Error.Unguarded (choose c m).outcome := by
  unfold choose
  split
  · exact .ok _
  · rename_i hdone
    split
    · exact .ok _
    · rename_i hconverts
      split
      · rename_i err herr
        exact .error ((choosesAmong_nextAction hm.regular.components hm.kept).errors.map err herr)
      · exact .ok _
      · obtain ⟨op, hop⟩ := chooseCandidate_ok hc
          (Operation.exists_candidate hm hconverts (Bool.eq_false_iff.mpr hdone))
        rw [hop]
        exact .ok _

theorem isDone_of_choose (h : (choose c m).outcome = .ok none) : m.isDone = true := by
  unfold choose at h
  split at h
  · assumption
  · split at h
    · cases h
    · split at h
      · cases h
      · cases h
      · unfold chooseCandidate at h
        dsimp only at h
        split at h
        · cases h
        · split at h
          · cases h
          · split at h <;> cases h

/-! ## runs -/

/-- the engines that a run goes through -/
inductive Reaches : Engine K → Engine K → Prop where
  | refl (e : Engine K) : Reaches e e
  | step {e f g : Engine K} {kind : OperationKind} {cost : Cost}
    (h : e.step = (.ok (.applied kind cost), f)) (hg : Reaches f g) : Reaches e g

/-- what a step does: it is done, runs the operation that is chosen, or hands on an error -/
theorem step_cases (hsteps : e.steps < e.config.maxSteps) :
    ((choose e.config e.marginal).outcome = .ok none ∧ e.step = (.ok .done, e.next.2))
      ∨ (∃ err, (choose e.config e.marginal).outcome = .error err
        ∧ e.step = (.error err, e.next.2))
      ∨ ∃ op, (choose e.config e.marginal).outcome = .ok (some op)
        ∧ ((∃ err, op.run e.marginal = .error err ∧ e.step = (.error err, e.next.2))
          ∨ ∃ m, op.run e.marginal = .ok m
            ∧ e.step = (.ok (.applied op.kind op.cost), e.next.2.applied op m)) := by
  have hnext : e.next = ((choose e.config e.marginal).outcome, e.next.2) := rfl
  unfold step
  rw [hnext]
  cases houtcome : (choose e.config e.marginal).outcome with
  | error err => exact .inr (.inl ⟨err, rfl, rfl⟩)
  | ok o =>
    cases o with
    | none => exact .inl ⟨rfl, rfl⟩
    | some op =>
      refine .inr (.inr ⟨op, rfl, ?_⟩)
      dsimp only
      have hallowed : ¬ e.next.2.config.maxSteps ≤ e.next.2.steps := Nat.not_le.mpr hsteps
      unfold perform
      rw [if_neg hallowed, show e.next.2.marginal = e.marginal from rfl]
      cases hrun : op.run e.marginal with
      | error err => exact .inl ⟨err, rfl, rfl⟩
      | ok m => exact .inr ⟨m, rfl, rfl⟩

theorem run_of_error {err : Error} (h : e.step = (.error err, f)) : e.run = (.error err, f) := by
  unfold run
  split
  · rename_i hs
    rw [h] at hs
    cases hs
    rfl
  · rename_i hs
    rw [h] at hs
    cases hs
  · rename_i hs
    rw [h] at hs
    cases hs

theorem run_of_done (h : e.step = (.ok .done, f)) : e.run = (.ok (), f) := by
  unfold run
  split
  · rename_i hs
    rw [h] at hs
    cases hs
  · rename_i hs
    rw [h] at hs
    cases hs
    rfl
  · rename_i hs
    rw [h] at hs
    cases hs

theorem run_of_applied {kind : OperationKind} {cost : Cost}
    (h : e.step = (.ok (.applied kind cost), f)) : e.run = f.run := by
  rw [run]
  split
  · rename_i hs
    rw [h] at hs
    cases hs
  · rename_i hs
    rw [h] at hs
    cases hs
  · rename_i hs
    rw [h] at hs
    cases hs
    rfl

/-- a run from normal forms of one schema comes to its end, or meets an error without a guard -/
theorem run_ok_or_unguarded (hm : e.marginal.Ready s) (hsize : e.config.maxFactorSize = none)
    (hsteps : e.steps + e.marginal.bulk < e.config.maxSteps)
    (hfree : ∀ f, e.Reaches f → ∀ op,
      (choose f.config f.marginal).outcome = .ok (some op) → op.CaptureFree) :
    (∃ f, e.run = (.ok (), f) ∧ f.isDone = true)
      ∨ ∃ err f, e.run = (.error err, f) ∧ err.Unguarded := by
  induction hn : e.marginal.bulk using Nat.strong_induction_on generalizing e with
  | _ n ih =>
    have hchoose := errorsIn_choose hsize hm
    rcases step_cases (e := e) (by omega) with ⟨hdone, hstep⟩ | ⟨err, herr, hstep⟩ | ⟨op, hop, hrun⟩
    · exact .inl ⟨_, run_of_done hstep, isDone_of_choose hdone⟩
    · exact .inr ⟨err, _, run_of_error hstep, hchoose err herr⟩
    · have heligible := eligible_of_choose hop
      have hopfree := hfree e (.refl e) op hop
      rcases hrun with ⟨err, herr, hstep⟩ | ⟨m, hm', hstep⟩
      · exact .inr ⟨err, _, run_of_error hstep,
          Operation.errorsIn_run hm heligible hopfree err herr⟩
      · have hproper : e.marginal.Proper := fun c hc => (hm.components c hc).regular.proper
        have hlt := (Operation.bulk_run hproper heligible hopfree hm').2
        rw [run_of_applied hstep]
        refine ih m.bulk (hn ▸ hlt) (Operation.ready_run hm heligible hopfree hm') hsize ?_
          (fun f hf => hfree f (.step hstep hf)) rfl
        show e.steps + 1 + m.bulk < e.config.maxSteps
        omega

/-- **A run is never refused an operation, and never stalls.**  The components are accepted by the
builders and normal forms of one schema, no table is too large, the step limit is above the bulk of
the marginal, and no elimination that is chosen on the way captures a variable.  Then the run comes to
its end, unless a table does not fit into memory or does not fit its formulas, or a formula that
excludes variables would have to be expanded on an individual. -/
theorem run_finishes (hm : m.Accepted) (htyped : ∀ c ∈ m.distribution.toList, c.Typed s)
    (hkept : ∀ t ∈ m.kept, t.Follows s)
    (hnormal : ∀ c ∈ m.distribution.toList, c.normalize = .ok (some c))
    (hsize : c.maxFactorSize = none) (hsteps : m.bulk < c.maxSteps)
    (hfree : ∀ e, (start m c).Reaches e → ∀ op,
      (choose e.config e.marginal).outcome = .ok (some op) → op.CaptureFree) :
    (∃ e, (start m c).run = (.ok (), e) ∧ e.isDone = true)
      ∨ ∃ err e, (start m c).run = (.error err, e) ∧ err.Unguarded := by
  refine run_ok_or_unguarded (s := s) ⟨fun d hd => ?_, hkept⟩ hsize ?_ hfree
  · exact ⟨(hm d hd).regular (htyped d hd), Component.stable_of_normalize (hnormal d hd)⟩
  · exact (Nat.zero_add m.bulk).symm ▸ hsteps

/-- all engines of a run that ends after `n` steps -/
theorem exists_of_reaches (es : Nat → Engine K) {n : Nat} (hnext : ∀ i, es (i + 1) = (es i).step.2)
    (hend : ∀ kind cost, (es n).step.1 ≠ .ok (.applied kind cost)) {i : Nat} (hi : i ≤ n)
    (h : (es i).Reaches f) : ∃ j ≤ n, f = es j := by
  generalize he : es i = e at h
  induction h generalizing i with
  | refl e => exact ⟨i, hi, he.symm⟩
  | step hstep _ ih =>
    subst he
    rcases Nat.lt_or_eq_of_le hi with hlt | rfl
    · exact ih hlt (by rw [hnext, hstep])
    · exact absurd (by rw [hstep]) (hend _ _)

end Engine

/-! ## the counted epidemic -/

open scoped ExactScalar

namespace Epidemic

/-- the people of the epidemic, and nothing but yes and no -/
def schema : Schema := ⟨fun _ _ => people, fun _ => .boolean⟩

/-- the engine on the counted epidemic after some steps, without a limit for tables -/
def unlimited : Nat → Engine Nat
  | 0 => .start counted ⟨38, none⟩
  | i + 1 => (unlimited i).step.2

theorem follows_sick {t : Term} (ht : ∀ x, t = .var x → x = person) : (sick t).Follows schema where
  isOver := Atom.isOver_of_forall fun x hx => by
    rw [ht x (List.mem_singleton.mp (Atom.mem_variables.mp hx)).symm]
    rfl
  range := rfl

theorem follows_ground {functor : String} : Atom.Follows schema ⟨functor, [], .boolean⟩ where
  isOver := Atom.isOver_of_forall fun _ hx => absurd (Atom.mem_variables.mp hx) List.not_mem_nil
  range := rfl

theorem typed_counted : ∀ c ∈ counted.distribution.toList, c.Typed schema := by
  have hempty : ConstraintSet.Regular ∅ := ⟨⟨nofun, nofun⟩, nofun⟩
  have hatom : ∀ {a : Atom}, a.Follows schema → (Prv.atom a).Follows schema := fun h => ⟨h, nofun⟩
  have hperson : (sick (.var person)).Follows schema :=
    follows_sick fun x hx => (Term.var.inj hx).symm
  refine Distribution.forall_mem_ofList (P := fun c => c.Typed schema) (fun _ hc => hc.squared)
    fun c hc => ?_
  simp only [List.mem_cons, List.not_mem_nil, or_false] at hc
  rcases hc with rfl | rfl | rfl
  · refine ⟨hempty, fun q hq => ?_⟩
    rcases List.mem_cons.mp hq with rfl | hq
    · exact ⟨hperson, fun f hf => Prv.count.inj hf ▸ hempty.toMatched⟩
    · exact List.mem_singleton.mp hq ▸ hatom follows_ground
  · exact ⟨hempty, fun q hq => List.mem_singleton.mp hq ▸ hatom (follows_sick nofun)⟩
  · refine ⟨hempty, fun q hq => ?_⟩
    rcases List.mem_cons.mp hq with rfl | hq
    · exact hatom hperson
    · exact List.mem_singleton.mp hq ▸ hatom follows_ground

theorem follows_kept_counted : ∀ t ∈ counted.kept, t.Follows schema := by
  have hkept : counted.kept = [⟨.atom epidemic, ∅⟩] := by decide
  intro t ht
  rw [hkept] at ht
  exact List.mem_singleton.mp ht ▸ ⟨⟨follows_ground, nofun⟩, nofun, nofun⟩

theorem normalize_counted : ∀ c ∈ counted.distribution.toList, c.normalize = .ok (some c) := by
  have hstable : ∀ c ∈ counted.distribution.toList, c.Stable := by
    refine Distribution.forall_mem_ofList (P := Component.Stable) (fun _ hc => hc.squared)
      fun c hc => ?_
    simp only [List.mem_cons, List.not_mem_nil, or_false] at hc
    rcases hc with rfl | rfl | rfl
    · exact ⟨⟨by decide, by decide⟩, by decide, by decide⟩
    · exact ⟨⟨by decide, by decide⟩, by decide, by decide⟩
    · exact ⟨by decide, by decide⟩
  exact fun c hc => (hstable c hc).normalize

theorem unlimited_captureFree {e : Engine Nat} (he : (unlimited 0).Reaches e) {op : Operation Nat}
    (hop : (Engine.choose e.config e.marginal).outcome = .ok (some op)) : op.CaptureFree := by
  have hend : (unlimited 7).step.1 = .ok .done := by decide +kernel
  obtain ⟨i, hi, rfl⟩ := Engine.exists_of_reaches unlimited (fun _ => rfl)
    (fun kind cost h => by rw [hend] at h; cases h) (Nat.zero_le 7) he
  have hfree : ∀ i ≤ 7, ∀ op ∈
      (Engine.choose (unlimited i).config (unlimited i).marginal).outcome.toOption.join,
      op.CaptureFree := by
    decide +kernel
  exact hfree i hi op (by rw [hop]; rfl)

theorem run_finishes_counted : counted.Accepted
    ∧ (∀ c ∈ counted.distribution.toList, c.Typed schema)
    ∧ (∀ c ∈ counted.distribution.toList, c.normalize = .ok (some c))
    ∧ counted.bulk < 38
    ∧ ((∃ e, (Engine.start counted ⟨38, none⟩).run = (.ok (), e) ∧ e.isDone = true)
      ∨ ∃ err e, (Engine.start counted ⟨38, none⟩).run = (.error err, e) ∧ err.Unguarded) := by
  have hbulk : counted.bulk < 38 := by decide +kernel
  exact ⟨accepted_counted, typed_counted, normalize_counted, hbulk,
    Engine.run_finishes accepted_counted typed_counted follows_kept_counted normalize_counted rfl
      hbulk fun _ he _ hop => unlimited_captureFree he hop⟩

end Epidemic

end LiftedElimination
