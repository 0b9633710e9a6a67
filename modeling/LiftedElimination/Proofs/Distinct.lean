import LiftedElimination.Proofs.Answer
import LiftedElimination.Proofs.BoundName
import LiftedElimination.Proofs.Fitting
import LiftedElimination.Proofs.Spanning

/-!
# Random variables that stay distinct

A renaming that keeps the variables apart, and captures none, keeps the random variables of a parfactor
apart and their ranges as large as they were.  So a parfactor that is aligned with a set still has one
entry for every assignment, and lists no random variable twice: the other ones stay different from that
of the set, and its formula counts as many individuals under either bound name.

* `Prv.eq_of_apply`        random variables with one image are equal;
* `domainSize_withBound_of_isOrdered`     a formula with another bound variable counts as many individuals;
* `Parfactor.Full`         a table with an entry for every assignment of distinct random variables;
* `Full.apply`, `Full.replacePrv`   renaming, and another random variable in one place, keep it;
* `full_alignAt?`          **alignment keeps it**.
-/

namespace LiftedElimination

variable {K : Type}

/-! ## random variables with one image -/

section
variable {s : Substitution} {vars : List LogVar}

theorem Atom.eq_of_apply {a b : Atom} (hr : s.IsRenaming) (hinj : s.InjOn vars)
    (ha : ∀ x ∈ a.variables, x ∈ vars) (hb : ∀ x ∈ b.variables, x ∈ vars)
    (h : a.apply s = b.apply s) : a = b := by
  obtain ⟨hfunctor, hterms, hrange⟩ := Atom.mk.inj h
  have heq : a.terms = b.terms := by
    refine List.ext_getElem? fun i => ?_
    have hi : (a.terms[i]?).map s.apply = (b.terms[i]?).map s.apply := by
      rw [← List.getElem?_map, ← List.getElem?_map, hterms]
    cases ht : a.terms[i]? with
    | none =>
      rw [ht] at hi
      exact (Option.map_eq_none_iff.mp hi.symm).symm
    | some t =>
      rw [ht] at hi
      obtain ⟨u, hu, hut⟩ := Option.map_eq_some_iff.mp hi.symm
      rw [hu, hinj.eq_of_apply hr (fun x hx => ?_) (fun x hx => ?_) hut.symm]
      · exact ha x (mem_variables.mpr (hx ▸ List.mem_of_getElem? ht))
      · exact hb x (mem_variables.mpr (hx ▸ List.mem_of_getElem? hu))
  cases a
  cases b
  cases hfunctor
  cases hrange
  cases heq
  rfl

/-- a checked random variable over `vars` that captures none of them under `s` -/
structure Prv.Clear (s : Substitution) (vars : List LogVar) (q : Prv) : Prop where
  valid : q.Valid
  ordered : q.IsOrdered
  avoids : q.Avoids s
  free : ∀ x ∈ q.freeVars, x ∈ vars

namespace CountingFormula

variable {f g : CountingFormula}

/-- an exclusion of one formula is one of another formula with the same image -/
theorem mem_exclusions_of_apply (hr : s.IsRenaming) (hinj : s.InjOn vars)
    (hf : (Prv.count f).Clear s vars) (hg : (Prv.count g).Clear s vars)
    (h : f.apply s = g.apply s) {t : Term} (ht : t ∈ f.exclusions) : t ∈ g.exclusions := by
  have hfree : ∀ {e : CountingFormula} {u : Term}, (Prv.count e).Clear s vars → u ∈ e.exclusions →
      ∀ x, u = .var x → x ∈ vars := by
    rintro e _ he hu x rfl
    exact he.free x (mem_freeVars.mpr (.inr (mem_excludedVars_iff.mpr hu)))
  have himage : s.apply t ∈ (g.apply s).exclusions :=
    h ▸ (mem_exclusions_apply hf.valid hf.avoids).mpr ⟨t, ht, rfl⟩
  obtain ⟨u, hu, hut⟩ := (mem_exclusions_apply hg.valid hg.avoids).mp himage
  rwa [← hinj.eq_of_apply hr (hfree hg hu) (hfree hf ht) hut]

/-- the variables of the atom are the bound one and free ones -/
theorem mem_bound_cons {x : LogVar} (hx : x ∈ f.inner.variables) : x ∈ f.bound :: f.freeVars := by
  by_cases hxb : x = f.bound
  · exact hxb ▸ List.mem_cons_self
  · exact List.mem_cons_of_mem _ (mem_freeVars.mpr (.inl ⟨hx, hxb⟩))

/-- **Formulas with one image are equal**: inside of them the bound variable is kept apart as well. -/
theorem eq_of_apply (hr : s.IsRenaming) (hinj : s.InjOn vars) (hf : (Prv.count f).Clear s vars)
    (hg : (Prv.count g).Clear s vars) (h : f.apply s = g.apply s) : f = g := by
  have hbound : (f.apply s).bound = (g.apply s).bound := congrArg _ h
  have hinner : (f.apply s).inner = (g.apply s).inner := congrArg _ h
  change f.bound = g.bound at hbound
  change f.inner.apply (s.without (· = f.bound)) = g.inner.apply (s.without (· = g.bound)) at hinner
  rw [← hbound] at hinner
  have hinside : (s.without (· = f.bound)).InjOn (f.bound :: (f.freeVars ++ g.freeVars)) := by
    refine (hinj.mono fun x hx => ?_).without fun x hx => ?_
    · exact (List.mem_append.mp hx).elim (hf.free x) (hg.free x)
    · exact (List.mem_append.mp hx).elim (hf.avoids x) (hbound ▸ hg.avoids x)
  have hatoms : f.inner = g.inner := by
    refine Atom.eq_of_apply (hr.without f.bound) hinside (fun x hx => ?_) (fun x hx => ?_) hinner
    · exact List.cons_subset_cons _ (List.subset_append_left _ _) (mem_bound_cons hx)
    · exact List.cons_subset_cons _ (List.subset_append_right _ _) (hbound ▸ mem_bound_cons hx)
  refine eq_of_parts hbound hatoms fun k => ?_
  rw [mem_constraints_iff hf.valid (hf.ordered f rfl), mem_constraints_iff hg.valid (hg.ordered g rfl),
    hbound]
  exact exists_congr fun t => and_congr_left' ⟨mem_exclusions_of_apply hr hinj hf hg h,
    mem_exclusions_of_apply hr hinj hg hf h.symm⟩

/-! ## the size of a formula with another bound variable -/

theorem isOrdered_withBound (hf : f.Valid) (x : LogVar) : (f.withBound x).constraints.IsOrdered := by
  intro k hk
  obtain ⟨t, -, rfl⟩ := (mem_constraints_withBound hf).mp hk
  exact Constraint.ordered_ordered x t

/-- **As many individuals are counted** under another name, and the formula need not be exact. -/
theorem domainSize_withBound_of_isOrdered (hf : f.Valid) (hordered : f.constraints.IsOrdered) {x : LogVar}
    (hx : x ∉ f.freeVars) (hpop : x.population = f.bound.population) :
    (f.withBound x).domainSize = f.domainSize := by
  have hordered' := isOrdered_withBound hf x
  have hperm : (f.withBound x).absent.Perm f.absent := by
    refine (List.perm_ext_iff_of_nodup (nodup_absent hordered') (nodup_absent hordered)).mpr fun t => ?_
    rw [mem_absent, mem_absent, mem_exclusions_withBound hf hx]
    show _ ∧ (∀ c, t = .const c → c ∈ x.population) ↔ _
    rw [hpop]
  rw [domainSize_eq hordered', domainSize_eq hordered, hperm.length_eq]
  show x.population.toFinset.card - _ = _
  rw [hpop]

end CountingFormula

/-- **Random variables with one image are equal.** -/
theorem Prv.eq_of_apply {q r : Prv} (hr : s.IsRenaming) (hinj : s.InjOn vars)
    (hq : q.Clear s vars) (hr' : r.Clear s vars) (h : q.apply s = r.apply s) : q = r := by
  cases q with
  | atom a =>
    cases r with
    | atom b => exact congrArg _ (Atom.eq_of_apply hr hinj hq.free hr'.free (Prv.atom.inj h))
    | count g => cases h
  | count f =>
    cases r with
    | atom b => cases h
    | count g => exact congrArg _ (CountingFormula.eq_of_apply hr hinj hq hr' (Prv.count.inj h))

end

/-! ## full tables of distinct random variables -/

namespace Parfactor

variable {p p' : Parfactor K} {t : PrvSet} {s : Substitution} {v : Prv} {k : Nat}

/-- the table has an entry for every assignment, and every random variable has a value -/
structure Dense (p : Parfactor K) : Prop where
  tabulated : p.Tabulated
  values : ∀ q ∈ p.prvs, 0 < q.rangeSize

/-- a checked parfactor with a dense table of random variables that are listed once -/
structure Full (p : Parfactor K) : Prop extends Dense p where
  proper : p.Proper
  satisfiable : ∀ c ∈ p.constraints, c.isContradiction = false
  ordered : ∀ q ∈ p.prvs, q.IsOrdered
  nodup : p.prvs.Nodup

/-- what the builder has accepted only has to list distinct random variables with values -/
theorem Accepted.full [Scalar K] (hp : p.Accepted) (hordered : (Component.standard p).IsOrdered)
    (hvalues : ∀ q ∈ p.prvs, 0 < q.rangeSize) (hnodup : p.prvs.Nodup) : p.Full :=
  ⟨⟨hp.tabulated, hvalues⟩, hp.proper, hp.satisfiable, hordered.prvs, hnodup⟩

theorem Full.squared [Scalar K] (hp : p.Full) : p.squared.Full :=
  ⟨⟨⟨(Factor.size_map _ _).trans hp.tabulated.size,
    (Factor.size_map _ _).trans_le hp.tabulated.stored⟩, hp.values⟩,
    ⟨hp.proper.valid, hp.proper.bound⟩, hp.satisfiable, hp.ordered, hp.nodup⟩

/-- the ranges of a parfactor renamed without merging variables are as large as before -/
theorem sizes_renamed (hp : p.Full) (hr : s.IsRenaming) (havoids : ∀ q ∈ p.prvs, q.Avoids s)
    (hinj : s.InjOn p.logVars) :
    (p.prvs.map (·.apply s)).map Prv.rangeSize = p.sizes := by
  rw [List.map_map]
  refine List.map_congr_left fun q hq => Prv.rangeSize_renamed (hp.proper.valid q hq)
    (hp.ordered q hq) (havoids q hq) hr (hinj.mono fun x hx => ?_)
  exact mem_logVars.mpr (.inl ⟨q, hq, hx⟩)

theorem nodup_renamed (hp : p.Full) (hr : s.IsRenaming) (havoids : ∀ q ∈ p.prvs, q.Avoids s)
    (hinj : s.InjOn p.logVars) : (p.prvs.map (·.apply s)).Nodup := by
  have hclear : ∀ q ∈ p.prvs, q.Clear s p.logVars := fun q hq =>
    ⟨hp.proper.valid q hq, hp.ordered q hq, havoids q hq, fun x hx =>
      mem_logVars.mpr (.inl ⟨q, hq, hx⟩)⟩
  exact hp.nodup.map_on fun q hq r hr' => Prv.eq_of_apply hr hinj (hclear q hq) (hclear r hr')

/-- **A parfactor renamed without merging variables** is full again. -/
theorem Full.apply (hp : p.Full) (hadmits : p.Admits s) (hr : s.IsRenaming) (hinj : s.InjOn p.logVars)
    (h : p.apply s = some p') : p'.Full := by
  have havoids : ∀ q ∈ p.prvs, q.Avoids s := fun q => hadmits.avoids
  have hproper := hp.proper.apply hadmits h
  have hsizes := sizes_renamed hp hr havoids hinj
  obtain ⟨ds, hds, rfl⟩ := apply_eq_some h
  refine ⟨⟨⟨?_, hp.tabulated.stored⟩, fun q hq => ?_⟩, hproper, fun c hc =>
    ConstraintSet.not_isContradiction_of_apply hds hc, fun q hq => ?_,
    nodup_renamed hp hr havoids hinj⟩
  · exact hp.tabulated.size.trans (congrArg List.prod hsizes).symm
  · have hmem : q.rangeSize ∈ p.sizes := hsizes ▸ List.mem_map_of_mem hq
    obtain ⟨u, hu, hur⟩ := List.mem_map.mp hmem
    exact hur ▸ hp.values u hu
  · obtain ⟨u, -, rfl⟩ := List.mem_map.mp hq
    exact u.isOrdered_apply s

/-- another random variable with as many values in the place of one of them -/
theorem Full.replacePrv {w : Prv} (hp : p.Full) (hk : p.prvs[k]? = some v)
    (hsize : w.rangeSize = v.rangeSize) (hordered : w.IsOrdered) (hproper : (p.replacePrv k w).Proper)
    (honce : (p.replacePrv k w).prvs.count w = 1) : (p.replacePrv k w).Full := by
  obtain ⟨hlt, rfl⟩ := List.getElem?_eq_some_iff.mp hk
  have hsizes : (p.prvs.set k w).map Prv.rangeSize = p.sizes := by
    rw [List.map_set, hsize, ← List.map_set, List.set_getElem_self]
    rfl
  have hperm := List.set_perm_cons_eraseIdx hlt w
  have hnot : w ∉ p.prvs.eraseIdx k := by
    have hcount := (hperm.count_eq w).symm.trans honce
    rw [List.count_cons_self] at hcount
    exact List.count_eq_zero.mp (Nat.succ.inj hcount)
  have hnodup := List.nodup_cons.mpr ⟨hnot, hp.nodup.sublist (List.eraseIdx_sublist _ _)⟩
  refine ⟨⟨⟨hp.tabulated.size.trans (congrArg List.prod hsizes).symm, hp.tabulated.stored⟩,
    fun q hq => ?_⟩, hproper, hp.satisfiable, fun q hq => ?_, hperm.nodup_iff.mpr hnodup⟩
  · rcases List.mem_or_eq_of_mem_set hq with hq | rfl
    · exact hp.values q hq
    · exact hsize ▸ hp.values _ (List.getElem_mem hlt)
  · rcases List.mem_or_eq_of_mem_set hq with hq | rfl
    · exact hp.ordered q hq
    · exact hordered

/-- the random variable of the set has as many values as the one that it replaces -/
theorem Placed.rangeSize_eq {o : Extent.Overlap} (h : Placed t p v o s) (ht : t.prv.Valid)
    (hordered : t.prv.IsOrdered) (hsame : (v.apply s).sameFormula t.prv = true) :
    t.prv.rangeSize = (v.apply s).rangeSize := by
  obtain ⟨⟨prv, cs⟩, ht'⟩ : ∃ u, u = t := ⟨t, rfl⟩
  subst ht'
  cases v with
  | atom a => exact congrArg Prv.rangeSize (Prv.eq_of_sameFormula hsame)
  | count f =>
    obtain ⟨g, rfl, hfg⟩ := Prv.exists_of_sameFormula hsame
    have hrename : f.apply s = g.withBound f.bound := hfg
    have hsize := CountingFormula.domainSize_withBound_of_isOrdered ht (hordered g rfl) (h.free f h.mem)
      (h.population_bound ht rfl)
    show g.rangeSize = (f.apply s).rangeSize
    rw [hrename]
    exact (CountingFormula.rangeSize_congr (f := g) (g := g.withBound f.bound) rfl hsize).symm

/-- **A parfactor aligned with a set** has its table as before, and lists distinct random variables
again, if nothing is captured and no variables are merged. -/
theorem full_alignAt? (hp : p.Full) (ht : t.prv.Valid) (hordered : t.prv.IsOrdered)
    (hfree : ∀ f, Prv.count f ∈ p.prvs → f.bound ∉ t.prv.freeVars)
    (hlength : p.logVars.length = t.prv.freeVars.length)
    (hothers : ∀ j q, j ≠ k → p.prvs[j]? = some q →
      (Extent.of q p.constraints).compare (.ofSet t) = .disjoint)
    (h : Operation.alignAt? t p k = some p') : p'.Full ∧ Spans t p' := by
  have hspans := spans_of_alignAt? hp.proper hfree hothers h
  have hproper := proper_alignAt? hp.proper ht hfree h
  obtain ⟨q, o, rho, renamed, hk, hplaced, hrenamed, hsame, hcs, hlog, rfl⟩ :=
    Operation.placed_of_alignAt? hp.proper hfree h
  have hinj : rho.InjOn p.logVars := by
    have hlogVars : renamed.logVars.length = t.prv.freeVars.length :=
      ((List.perm_ext_iff_of_nodup renamed.nodup_logVars t.prv.nodup_freeVars).mpr hlog).length_eq
    exact injOn_of_length hp.proper.valid (fun r => hplaced.admits.avoids) hrenamed
      (hlength.trans hlogVars.symm).le
  have hq : renamed.prvs[k]? = some (q.apply rho) := by
    obtain ⟨ds, -, rfl⟩ := apply_eq_some hrenamed
    rw [List.getElem?_map, hk]
    rfl
  exact ⟨(hp.apply hplaced.admits hplaced.isRenaming hinj hrenamed).replacePrv hq
    (hplaced.rangeSize_eq ht hordered hsame) hordered hproper hspans.once, hspans⟩

end Parfactor

/-! ## components -/

namespace Component

def Full : Component K → Prop
  | standard p => p.Full
  | aggregation _ => True

theorem Full.squared [Scalar K] {c : Component K} (hc : c.Full) : c.squared.Full := by
  cases c with
  | standard p => exact Parfactor.Full.squared hc
  | aggregation a => trivial

end Component

end LiftedElimination
