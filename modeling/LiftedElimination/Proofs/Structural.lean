import LiftedElimination.Proofs.Nobody
import LiftedElimination.Proofs.Halting

/-!
# Structural operations keep the meaning

Counting, expansion and grounding replace one parfactor by parfactors that restate it.  Expansion and
grounding take one individual after the other, and stop when normal forms have taken the formula or
the variable away.

* `Restates.append`          the parts of a component restated one by one;
* `Operation.restates_expandAll`, `restates_groundAll`   the runs over all individuals;
* `Operation.sumsTo_replace`   one component of a marginal replaced by what restates it;
* `Operation.sumsTo_runExpand`, `sumsTo_runGround`, `sumsTo_runConvert`,
  `sumsTo_runCount`          nothing is summed out;
* `Operation.structural_meaning`   the operations keep the meaning and the kept sets.
-/

namespace LiftedElimination

open Finset

variable {K : Type} [ExactScalar K]

/-! ## runs of one kind -/

/-- each of two parts restated by itself -/
theorem Restates.append {c d e : Component K} {l m : List (Component K)} (h : Restates c [d, e])
    (hd : Restates d l) (he : Restates e m) : Restates c (l ++ m) := by
  have hdc : d.scope ⊆ c.scope := h.scope d (by simp)
  have hec : e.scope ⊆ c.scope := h.scope e (by simp)
  refine ⟨fun b hb => ?_, fun b hb => ?_, fun w hw => ?_⟩
  · exact (List.mem_append.mp hb).elim (hd.sound b) (he.sound b)
  · exact (List.mem_append.mp hb).elim (fun hb => (hd.scope b hb).trans hdc)
      fun hb => (he.scope b hb).trans hec
  · rw [meaningOf_append, hd.meaning w (hw.mono hdc), he.meaning w (hw.mono hec), ← h.meaning w hw,
      meaningOf_cons, meaningOf_cons, meaningOf_nil, mul_one]

namespace Operation

/-- **Everybody taken out of a formula** in turn -/
theorem restates_expandAll {p q : Parfactor K} {o : Option CountingFormula} {cs : List Constant}
    (hp : p.Sound) (h : expandAll p o cs = .ok q) : Restates (.standard p) [.standard q] := by
  induction cs generalizing p o with
  | nil =>
    cases o <;> cases h <;> exact .refl hp
  | cons c cs ih =>
    cases o with
    | none =>
      cases h
      exact .refl hp
    | some f =>
      obtain ⟨r, hr, -, h⟩ := expandAll_ok h
      have hrestates := Parfactor.restates_expand hp hr
      exact hrestates.trans (ih (hrestates.sound _ (List.mem_singleton.mpr rfl)) h)

/-- **A variable grounded** for one individual after the other, as long as it is there -/
theorem restates_groundAll {x : LogVar} {p : Parfactor K} {cs : List Constant}
    {l : List (Parfactor K)} (hp : p.Sound) (h : groundAll x (some p) cs = .ok l) :
    Restates (.standard p) (l.map .standard) := by
  induction cs generalizing p l with
  | nil =>
    cases h
    exact .refl hp
  | cons c cs ih =>
    obtain ⟨-, rfl⟩ | ⟨-, s, fragment, residual, rest, hs, hfragment, hresidual, hrest, rfl⟩ :=
      groundAll_ok h
    · exact .refl hp
    · have hsplit := Parfactor.restates_split hp hs
      have hleft := Parfactor.restates_normalize
        (hsplit.sound (.standard s.fragment) (by simp)) hfragment
      have hright := Parfactor.restates_normalize
        (hsplit.sound (.standard s.residual) (by simp)) hresidual
      rw [List.map_append]
      refine hsplit.append hleft ?_
      cases residual with
      | none =>
        rw [groundAll] at hrest
        cases hrest
        exact hright
      | some q => exact hright.trans (ih (hright.sound _ (List.mem_singleton.mpr rfl)) hrest)

end Operation

/-! ## the marginal -/

/-- whatever is put into a distribution leaves its ground random variables there -/
theorem Distribution.scope_subset_absorb (s : SortedSet (Component K)) (c : Component K)
    {b : Component K} (hb : b ∈ s.toList ∨ b = c) : b.scope ⊆ scopeOf (absorb s c).toList := by
  induction s, c using absorb.induct generalizing b with
  | case1 s c h _ ih =>
    rw [absorb, dif_pos h]
    by_cases hbc : b = c
    · subst hbc
      exact b.scope_squared ▸ ih (.inr rfl)
    · refine ih (.inl (List.mem_filter.mpr ⟨hb.resolve_right hbc, ?_⟩))
      rw [bne_iff_ne, Ne, Std.compare_eq_iff_eq]
      exact fun h => hbc h.symm
  | case2 s c h =>
    rw [absorb, dif_neg h]
    exact fun v hv => mem_scopeOf.mpr ⟨b, SortedSet.mem_insertList.mpr hb.symm, hv⟩

theorem Distribution.scope_subset_addAll (d : Distribution K) {l : List (Component K)}
    {b : Component K} (hb : b ∈ d.toList ∨ b ∈ l) : b.scope ⊆ scopeOf (d.addAll l).toList := by
  suffices h : b.scope ⊆ scopeOf d.toList ∨ b ∈ l → b.scope ⊆ scopeOf (d.addAll l).toList from
    h (hb.imp_left fun hb v hv => mem_scopeOf.mpr ⟨b, hb, hv⟩)
  clear hb
  induction l generalizing d with
  | nil => exact fun h => h.resolve_right List.not_mem_nil
  | cons c l ih =>
    refine fun h => ih (d.add c) ?_
    rcases h with h | h
    · refine .inl (h.trans fun v hv => ?_)
      obtain ⟨e, he, hv⟩ := mem_scopeOf.mp hv
      exact scope_subset_absorb d.components c (.inl he) hv
    · exact (List.mem_cons.mp h).imp_left fun h => scope_subset_absorb d.components c (.inr h)

namespace Operation

variable {m m' : Marginal K} {p : Parfactor K} {x : LogVar} {f : CountingFormula}

/-- **One component replaced** by components with the same product -/
theorem meaning_replace {c : Component K} {l : List (Component K)} {d : Distribution K}
    (hd : remove m.distribution c = .ok d) {w : World} (hl : meaningOf l w = c.meaning w) :
    meaningOf (d.addAll l).toList w = m.meaning w := by
  have hmem := mem_of_remove hd
  obtain rfl := remove_ok hd
  rw [Distribution.meaningOf_addAll, hl]
  exact Distribution.meaningOf_erase hmem w

/-- one component replaced by what restates it -/
theorem sumsTo_replace {c : Component K} {l : List (Component K)} {d : Distribution K}
    (hm : ∀ c ∈ m.distribution.toList, c.Sound) (hd : remove m.distribution c = .ok d)
    (hl : Restates c l) : m.SumsTo ∅ (m.withDistribution (d.addAll l)) := by
  have hc := mem_of_remove hd
  have hall : ∀ b ∈ (d.addAll l).toList, b.Sound ∧ b.scope ⊆ m.scope := by
    refine Distribution.forall_mem_addAll
      (fun b hb => ⟨hb.1.squared, b.scope_squared ▸ hb.2⟩)
      (fun b hb => ⟨hl.sound b hb, (hl.scope b hb).trans (Marginal.scope_subset hc)⟩) d fun b hb => ?_
    obtain rfl := remove_ok hd
    have hb := (List.mem_filter.mp hb).1
    exact ⟨hm b hb, Marginal.scope_subset hb⟩
  refine Marginal.sumsTo_empty rfl (fun b hb => (hall b hb).1) (fun v hv => ?_) fun w hw => ?_
  · obtain ⟨b, hb, hv⟩ := mem_scopeOf.mp hv
    exact (hall b hb).2 hv
  · exact meaning_replace hd (hl.meaning w (hw.mono (Marginal.scope_subset hc)))

/-- one component replaced by what restates it, and the marginal shattered -/
theorem sumsTo_replace_shatter {c : Component K} {l : List (Component K)} {d : Distribution K}
    (hm : ∀ c ∈ m.distribution.toList, c.Sound) (hd : remove m.distribution c = .ok d)
    (hl : Restates c l) (h : (m.withDistribution (d.addAll l)).shatter = .ok m') :
    m.SumsTo ∅ m' := by
  have hreplace := sumsTo_replace hm hd hl
  exact hreplace.trans (Marginal.sumsTo_shatter hreplace.sound h)

theorem sumsTo_runExpand (hm : ∀ c ∈ m.distribution.toList, c.Sound)
    (h : runExpand m p f = .ok m') : m.SumsTo ∅ m' := by
  obtain ⟨q, d, cs, hq, hd, hcs, h⟩ := runExpand_ok h
  have hexpand := restates_expandAll (hm _ (mem_of_remove hd)) hq
  exact sumsTo_replace_shatter hm hd (restates_normalForms (l := [q]) hexpand hcs) h

theorem sumsTo_runGround (hm : ∀ c ∈ m.distribution.toList, c.Sound)
    (h : runGround m p x = .ok m') : m.SumsTo ∅ m' := by
  obtain ⟨l, d, hl, hd, h⟩ := runGround_ok h
  exact sumsTo_replace_shatter hm hd (restates_groundAll (hm _ (mem_of_remove hd)) hl) h

/-- where nobody is counted, both the parfactor and what is left of it mean one -/
theorem meaningOf_count_nobody {r : Parfactor K} {i : Nat} {cs : List (Component K)}
    (hp : p.Sound) (hlocal : p.solutions = ∅ → p.ExactLocally)
    (hcountable : p.isCountable f.bound = true) (hturns : p.TurnsInto f i r)
    (hr : Parfactor.rebuild r.constraints r.prvs (p.countEntry f i) = .ok r)
    (hf : f.domainSize = 0) (hcs : normalForms [r] = .ok cs) {w : World}
    (hw : ∀ c ∈ cs, w.Legal c.scope) : meaningOf cs w = p.meaning w := by
  have hempty := hturns.solutions_eq_empty hcountable hf
  obtain ⟨normal, hnormal, hnormals⟩ := bind_ok hcs
  cases hnormals
  rw [Parfactor.meaning, hempty, prod_empty]
  cases collect_ok hnormal with
  | @cons _ o _ _ ho hnil =>
    cases hnil
    cases o with
    | none => rfl
    | some q =>
      rw [show List.filterMap _ [some q] = [Component.standard q] from rfl, meaningOf_cons,
        meaningOf_nil, mul_one]
      exact Parfactor.meaning_normalize_count hp.proper hp.satisfiable (hlocal hempty) hturns
        hcountable hf hr ho (hw (.standard q) (List.mem_singleton.mpr rfl))

/-- a conversion that the builder accepts -/
theorem sumsTo_runConvert {a : Aggregation K} (hm : ∀ c ∈ m.distribution.toList, c.Sound)
    (hs : a.constraints.satisfiable a.logVars = true) (h : runConvert m a = .ok m') :
    m.SumsTo ∅ m' := by
  obtain ⟨d, ps, cs, hd, hps, hcs, rfl⟩ := runConvert_ok h
  have hparts := a.restates_toParfactors (hm _ (mem_of_remove hd))
    (Aggregation.nonempty_of_toParfactors hps hs) hps
  exact sumsTo_replace hm hd (restates_normalForms hparts hcs)

/-- counting somebody -/
theorem sumsTo_runCount (hm : ∀ c ∈ m.distribution.toList, c.Sound)
    (hne : ∀ p, .standard p ∈ m.distribution.toList → p.solutions.Nonempty)
    (h : runCount m p x = .ok m') : m.SumsTo ∅ m' := by
  obtain ⟨r, d, cs, hr, hd, hcs, rfl⟩ := runCount_ok h
  have hp : p.Sound := hm _ (mem_of_remove hd)
  obtain ⟨hcountable, f, i, rfl, hturns, hrebuild⟩ := Parfactor.turnsInto_of_count hr
  have hpos : 0 < f.domainSize := Nat.pos_of_ne_zero fun hzero =>
    (hne p (mem_of_remove hd)).ne_empty (hturns.solutions_eq_empty hcountable hzero)
  have hcount := hturns.restates hp hcountable hpos hrebuild
  exact sumsTo_replace hm hd (restates_normalForms (l := [r]) hcount hcs)

theorem meaning_runCount (hm : ∀ c ∈ m.distribution.toList, c.Sound)
    (hlocal : ∀ p, .standard p ∈ m.distribution.toList → p.solutions = ∅ → p.ExactLocally)
    (h : runCount m p x = .ok m') : m'.kept = m.kept
      ∧ ∀ w : World, w.Legal (m.scope ∪ m'.scope) → m'.meaning w = m.meaning w := by
  obtain ⟨r, d, cs, hr, hd, hcs, rfl⟩ := runCount_ok h
  have hmem := mem_of_remove hd
  have hp : p.Sound := hm _ hmem
  refine ⟨rfl, fun w hw => ?_⟩
  obtain ⟨hcountable, f, i, rfl, hturns, hrebuild⟩ := Parfactor.turnsInto_of_count hr
  rcases Nat.eq_zero_or_pos f.domainSize with hzero | hpos
  · refine meaning_replace hd (meaningOf_count_nobody hp (hlocal p hmem) hcountable hturns hrebuild
      hzero hcs fun c hc => hw.mono (Subset.trans ?_ subset_union_right))
    exact Distribution.scope_subset_addAll d (.inr hc)
  · have hcount := hturns.restates hp hcountable hpos hrebuild
    have hsums := sumsTo_replace hm hd (restates_normalForms (l := [r]) hcount hcs)
    exact hsums.meaning_eq (hw.mono subset_union_left)

omit [ExactScalar K] in
theorem eq_of_count? [Scalar K] {m : Marginal K} {p : Parfactor K} {o : Operation K}
    (h : count? m p x = some o) : o = count p x := (count?_ok h).1

/-- **The structural operations keep the meaning**: let the builders have accepted the components and
all formulas be exact, also under the groundings of their own variables where a parfactor has none.
Then counting, expansion and grounding, as they are constructed for a parfactor, keep the kept sets,
and what they leave means the same in every world that gives legal values to what both are about. -/
theorem structural_meaning {o : Operation K} (hm : m.Accepted) (hexact : m.Exact)
    (hlocal : ∀ p, .standard p ∈ m.distribution.toList → p.solutions = ∅ → p.ExactLocally)
    (ho : (∃ p x, count? m p x = some o) ∨ (∃ p f, expand? p f = some o)
      ∨ ∃ p x, ground? p x = some o) (h : o.run m = .ok m') :
    m'.kept = m.kept
      ∧ ∀ w : World, w.Legal (m.scope ∪ m'.scope) → m'.meaning w = m.meaning w := by
  have hsound := hm.sound hexact
  rcases ho with ⟨p, x, ho⟩ | ⟨p, f, ho⟩ | ⟨p, x, ho⟩
  · obtain rfl := eq_of_count? ho
    exact meaning_runCount hsound hlocal h
  · obtain ⟨-, ho⟩ := Option.ite_none_right_eq_some.mp ho
    cases ho
    have hsums := sumsTo_runExpand hsound h
    exact ⟨hsums.kept, fun w hw => hsums.meaning_eq (hw.mono subset_union_left)⟩
  · obtain ⟨-, ho⟩ := Option.ite_none_right_eq_some.mp ho
    cases ho
    have hsums := sumsTo_runGround hsound h
    exact ⟨hsums.kept, fun w hw => hsums.meaning_eq (hw.mono subset_union_left)⟩

end Operation

section
open scoped ExactScalar

namespace Epidemic

/-- the parfactor of the counted epidemic that holds the formula -/
def spread : Parfactor Nat :=
  ⟨∅, [.count sickPeople, .atom epidemic], ⟨#[5, 1, 3, 1, 2, 2, 1, 4]⟩⟩

theorem exactLocally_counted :
    ∀ p, Component.standard p ∈ counted.distribution.toList → p.ExactLocally := by
  have hall : ∀ c ∈ counted.distribution.toList, ∀ p, c = .standard p → p.ExactLocally := by
    refine Distribution.forall_mem_ofList
      (P := fun c => ∀ p, c = .standard p → p.ExactLocally) (fun c hc p hp => ?_) fun c hc p hp => ?_
    · cases c with
      | standard q =>
        cases hp
        exact hc q rfl
      | aggregation a => cases hp
    · subst hp
      simp only [List.mem_cons, List.not_mem_nil, or_false, Component.standard.injEq,
        reduceCtorEq] at hc
      rcases hc with rfl | rfl
      · intro f hf γ _
        simp only [List.mem_cons, List.not_mem_nil, or_false, Prv.count.injEq, reduceCtorEq] at hf
        exact hf ▸ exact_sickPeople γ
      · exact fun f hf => by simp at hf
  exact fun p hp => hall _ hp p rfl

end Epidemic

theorem Epidemic.structural_meaning_counted :
    Operation.expand? spread sickPeople = some (.expand spread sickPeople)
      ∧ ∃ m', (Operation.expand spread sickPeople).run counted = .ok m'
        ∧ m'.kept = counted.kept
        ∧ ∀ w : World, w.Legal (counted.scope ∪ m'.scope) → m'.meaning w = counted.meaning w := by
  have hexpand : Operation.expand? spread sickPeople = some (.expand spread sickPeople) := by
    have hsome : (spread.contains (.count sickPeople) && sickPeople.excludedVars.isEmpty
        && decide (0 < sickPeople.domainSize)) = true := by decide
    exact if_pos hsome
  refine ⟨hexpand, ?_⟩
  cases h : (Operation.expand spread sickPeople).run counted with
  | error e =>
    have hok : ((Operation.expand spread sickPeople).run counted).isOk = true := by
      decide +kernel
    rw [h] at hok
    cases hok
  | ok m' =>
    exact ⟨m', rfl, Operation.structural_meaning accepted_counted exact_counted
      (fun p hp _ => exactLocally_counted p hp) (.inr (.inl ⟨_, _, hexpand⟩)) h⟩

end

end LiftedElimination
