import LiftedElimination.Proofs.Descent
import LiftedElimination.Engine

/-!
# Elimination terminates

Every operation that the engine chooses lowers the bulk of the marginal, provided that no formula of
an eliminated set captures a variable.  So the engine takes at most as many steps as the bulk says,
whatever its limits are.

* `Marginal.bulk`            the bulk of all components;
* `refinementBound_addAll`, `refinementBound_erase`   components put into a distribution and taken
                             out of it;
* `bulk_shatter`, `bulk_shatter_lt`   shattering never raises the bulk, and lowers it where anything
                             is left to do;
* `Operation.Eligible`       what the engine has checked of the operation that it chooses;
* `Operation.bulk_run`, `Engine.steps_le_bulk`   one operation, and a whole run.
-/

namespace LiftedElimination

open Finset

variable {K : Type} [Scalar K]

/-! ## distributions -/

namespace Distribution

theorem refinementBound_insertList (c : Component K) (l : List (Component K)) :
    refinementBound (SortedSet.insertList c l) ≤ refinementBound l + c.bulk := by
  induction l with
  | nil =>
    show refinementBound [c] ≤ 0 + c.bulk
    rw [refinementBound_cons, Nat.add_comm]
    exact Nat.le_refl _
  | cons b l ih =>
    unfold SortedSet.insertList
    split
    · rw [refinementBound_cons, Nat.add_comm]
    · exact Nat.le_add_right _ _
    · rw [refinementBound_cons, refinementBound_cons]
      omega

theorem refinementBound_absorb (s : SortedSet (Component K)) (c : Component K) :
    refinementBound (absorb s c).toList ≤ refinementBound s.toList + c.bulk := by
  induction s, c using absorb.induct with
  | case1 s c h _ ih =>
    have herase : refinementBound (s.erase c).toList ≤ refinementBound s.toList :=
      refinementBound_sublist List.filter_sublist
    rw [absorb, dif_pos h]
    rw [c.bulk_squared] at ih
    exact ih.trans (Nat.add_le_add_right herase _)
  | case2 s c h =>
    rw [absorb, dif_neg h]
    exact refinementBound_insertList c s.toList

theorem refinementBound_addAll (l : List (Component K)) (d : Distribution K) :
    refinementBound (d.addAll l).toList ≤ refinementBound d.toList + refinementBound l := by
  induction l generalizing d with
  | nil => exact Nat.le_add_right _ _
  | cons c l ih =>
    have hadd : refinementBound (d.add c).toList ≤ refinementBound d.toList + c.bulk :=
      refinementBound_absorb d.components c
    have hrest := ih (d.add c)
    rw [refinementBound_cons]
    show refinementBound ((d.add c).addAll l).toList ≤ _
    omega

theorem refinementBound_ofList (l : List (Component K)) :
    refinementBound (ofList l).toList ≤ refinementBound l := by
  have h := refinementBound_addAll l empty
  rwa [show refinementBound (empty : Distribution K).toList = 0 from rfl, Nat.zero_add] at h

theorem refinementBound_erase {d : Distribution K} {c : Component K} (hc : c ∈ d.toList) :
    c.bulk + refinementBound (d.erase c).toList ≤ refinementBound d.toList := by
  classical
  have hnot : c ∉ (d.erase c).toList := by
    intro h
    have hself : compare c c = .eq := Std.ReflCmp.compare_self
    simpa [hself] using (List.mem_filter.mp h).2
  have hsub : (d.erase c).toList.Sublist (d.toList.erase c) := by
    rw [← List.erase_of_not_mem hnot]
    exact List.filter_sublist.erase c
  rw [refinementBound_perm (List.perm_cons_erase hc), refinementBound_cons]
  exact Nat.add_le_add_left (refinementBound_sublist hsub) _

/-- what is taken out and put back is there as it was -/
theorem mem_addAll_erase (d : Distribution K) (c : Component K) :
    c ∈ ((d.erase c).addAll [c]).toList := by
  have hinsert : ∀ l : List (Component K), (∀ b ∈ l, compare c b ≠ .eq) →
      c ∈ SortedSet.insertList c l := by
    intro l
    induction l with
    | nil => exact fun _ => List.mem_cons_self
    | cons b l ih =>
      intro hl
      unfold SortedSet.insertList
      split
      · exact List.mem_cons_self
      · rename_i heq
        exact absurd heq (hl b List.mem_cons_self)
      · exact List.mem_cons_of_mem _ (ih fun a ha => hl a (List.mem_cons_of_mem _ ha))
  have hne : ∀ b ∈ (d.erase c).toList, compare c b ≠ .eq := fun b hb => by
    simpa using (List.mem_filter.mp hb).2
  have hnot : ¬ (d.components.erase c).contains c = true := by
    intro h
    obtain ⟨b, hb, heq⟩ := List.any_eq_true.mp h
    exact hne b hb (eq_of_beq heq)
  show c ∈ (absorb (d.components.erase c) c).toList
  rw [absorb, dif_neg hnot]
  exact hinsert _ hne

theorem proper_addAll {l : List (Component K)} {d : Distribution K} (hl : ∀ c ∈ l, c.Proper)
    (hd : ∀ c ∈ d.toList, c.Proper) : ∀ c ∈ (d.addAll l).toList, c.Proper :=
  forall_mem_addAll (P := Component.Proper) (fun _ hc => hc.squared) hl d hd

theorem proper_erase {d : Distribution K} (hd : ∀ c ∈ d.toList, c.Proper) (b : Component K) :
    ∀ c ∈ (d.erase b).toList, c.Proper := fun c hc => hd c (List.mem_filter.mp hc).1

end Distribution

/-! ## shattering -/

namespace Marginal

/-- the bulk of all components -/
def bulk (m : Marginal K) : Nat := refinementBound m.distribution.toList

variable {m s : Marginal K}

/-- a list in order is folded as it stands -/
theorem foldl_pushFolded_eq {l acc : List (Component K)}
    (h : (acc ++ l).Pairwise fun a b => compare a b = .lt) :
    l.foldl Distribution.pushFolded acc = acc ++ l := by
  induction l generalizing acc with
  | nil => exact (List.append_nil acc).symm
  | cons c l ih =>
    have hnone : acc.findIdx? c.same = none := by
      refine List.findIdx?_eq_none_iff.mpr fun d hd => ?_
      have hlt : compare d c = .lt :=
        (List.pairwise_append.mp h).2.2 d hd c List.mem_cons_self
      rw [Component.same, Std.OrientedCmp.gt_of_lt hlt]
      rfl
    have hpush : Distribution.pushFolded acc c = acc ++ [c] := by
      rw [Distribution.pushFolded]
      split
      · rfl
      · rename_i i hi
        rw [hnone] at hi
        cases hi
    rw [List.foldl_cons, hpush, ih (by rwa [← List.append_cons]), ← List.append_cons]

theorem normalized_eq_or_lt (hm : m.Proper) {cs : List (Component K)} (h : m.normalized = .ok cs) :
    (cs = m.distribution.toList ∧ ∀ c ∈ cs, c.normalize = .ok (some c))
      ∨ refinementBound cs < m.bulk := by
  obtain ⟨normal, hn, h⟩ := bind_ok h
  cases h
  have hnormal := collect_ok hn
  have hfold := (refinementBound_foldl_pushFolded (normal.filterMap id) []).2
  rw [show refinementBound ([] : List (Component K)) = 0 from rfl, Nat.zero_add] at hfold
  rcases (normalForms_eq_or_lt hnormal hm).2 with ⟨heq, hall⟩ | hlt
  · have hsame : m.distribution.toList.foldl Distribution.pushFolded [] = m.distribution.toList :=
      foldl_pushFolded_eq m.distribution.components.increasing
    rw [heq, hsame]
    exact .inl ⟨rfl, hall⟩
  · exact .inr (hfold.trans_lt hlt)

/-- a run of shattering, with the number of its refinements -/
theorem shatter_run (hm : m.Proper) (h : m.shatter = .ok s) : ∃ cs ds n, m.normalized = .ok cs
    ∧ Settles (refineRound m.kept) cs n (.ok ds) ∧ (∀ c ∈ ds, c.Proper)
    ∧ refinementBound ds + n ≤ refinementBound cs ∧ refineRound m.kept ds = .ok none
    ∧ s = m.withDistribution (.ofList ds) := by
  obtain ⟨-, -, ⟨e, -, he⟩ | ⟨cs, n, r, hcs, hproper, -, hsettles, hr⟩⟩ := shatter_terminates hm
  · rw [h] at he
    cases he
  · rw [h] at hr
    obtain ⟨ds, rfl, rfl⟩ := map_ok hr.symm
    obtain ⟨hds, hle, hdone⟩ := hsettles.add_le (I := fun cs => ∀ c ∈ cs, c.Proper)
      (m := refinementBound) (fun _ _ ha hab => refinementBound_refineRound ha hab) hproper
    exact ⟨cs, ds, n, hcs, hsettles, hds, hle, hdone, rfl⟩

/-- what a shattered marginal holds is bounded by what its normal forms hold -/
theorem bulk_withDistribution_le (m : Marginal K) (cs : List (Component K)) :
    (m.withDistribution (.ofList cs)).bulk ≤ refinementBound cs :=
  Distribution.refinementBound_ofList cs

theorem Proper.withDistribution {cs : List (Component K)} (hcs : ∀ c ∈ cs, c.Proper)
    (m : Marginal K) : (m.withDistribution (.ofList cs)).Proper :=
  Distribution.forall_mem_ofList (P := Component.Proper) (fun _ hc => hc.squared) hcs

theorem bulk_shatter (hm : m.Proper) (h : m.shatter = .ok s) : s.Proper ∧ s.bulk ≤ m.bulk := by
  obtain ⟨cs, ds, n, hcs, -, hds, hle, -, rfl⟩ := shatter_run hm h
  have hnormal := (hm.normalized hcs).2
  have hfold := bulk_withDistribution_le m ds
  refine ⟨Proper.withDistribution hds m, ?_⟩
  show _ ≤ refinementBound m.distribution.toList
  omega

/-- a component whose normal form is another one, or nothing, makes shattering lower the bulk -/
theorem bulk_shatter_lt_of_normalize (hm : m.Proper) (h : m.shatter = .ok s) {c : Component K}
    (hc : c ∈ m.distribution.toList) (hne : c.normalize ≠ .ok (some c)) : s.bulk < m.bulk := by
  obtain ⟨cs, ds, n, hcs, -, hds, hle, -, rfl⟩ := shatter_run hm h
  have hfold := bulk_withDistribution_le m ds
  rcases normalized_eq_or_lt hm hcs with ⟨rfl, hall⟩ | hlt
  · exact absurd (hall c hc) hne
  · omega

/-- **Shattering lowers the bulk** of whatever is not shattered. -/
theorem bulk_shatter_lt (hm : m.Proper) (hnot : m.isShattered = .ok false)
    (h : m.shatter = .ok s) : s.bulk < m.bulk := by
  obtain ⟨cs, ds, n, hcs, hsettles, hds, hle, hdone, rfl⟩ := shatter_run hm h
  have hfold := bulk_withDistribution_le m ds
  rcases normalized_eq_or_lt hm hcs with ⟨rfl, -⟩ | hlt
  · obtain ⟨next, hnext, hsome⟩ := map_ok hnot
    cases next with
    | none => cases hsome
    | some a =>
      obtain ⟨i, act⟩ := a
      -- there is an action, so that the run has a step
      have hpos : n ≠ 0 := by
        rintro rfl
        cases hsettles with
        | done _ =>
          have hnone := nextAction_of_refineRound hdone
          rw [hnext] at hnone
          cases hnone
      show _ < refinementBound m.distribution.toList
      omega
  · omega

end Marginal

/-! ## operations -/

namespace SetElimination

/-- no formula of an involved component binds a free variable of the set, so that the renaming to
the set captures nothing -/
def CaptureFree (e : SetElimination K) : Prop :=
  ∀ c ∈ e.involved, ∀ q ∈ c.prvs, ∀ f ∈ q.count?, f.bound ∉ e.eliminated.prv.freeVars

instance (e : SetElimination K) : Decidable e.CaptureFree := by
  unfold CaptureFree
  infer_instance

end SetElimination

namespace Operation

variable {m m' : Marginal K} {op : Operation K}

/-- what the engine has checked of the operation that it chooses -/
def Eligible (m : Marginal K) : Operation K → Prop
  | convert a => .aggregation a ∈ m.distribution.toList
  | shatter => m.isShattered = .ok false
  | count p x => .standard p ∈ m.distribution.toList ∧ p.isCountable x = true
    ∧ (p.holder? x).isSome = true
  | sumOut e => m.isShattered = .ok true ∧ ∃ p, .standard p ∈ m.distribution.toList
    ∧ ∃ q ∈ p.prvs, sameVars q.freeVars p.logVars = true ∧ sumOut? m (.of q p.constraints) = some e
  | expand p f => .standard p ∈ m.distribution.toList ∧ .count f ∈ p.prvs ∧ f.excludedVars = []
    ∧ 0 < f.domainSize
  | ground p x => .standard p ∈ m.distribution.toList ∧ x ∈ p.logVars ∧ m.isShattered = .ok true

/-- an elimination captures nothing; the other operations never do -/
def CaptureFree : Operation K → Prop
  | sumOut e => e.CaptureFree
  | _ => True

instance (op : Operation K) : Decidable op.CaptureFree :=
  match op with
  | sumOut e => inferInstanceAs (Decidable e.CaptureFree)
  | convert _ | shatter | count _ _ | expand _ _ | ground _ _ => isTrue trivial

/-- one component replaced by others -/
theorem bulk_replace (hm : m.Proper) {c : Component K} {l : List (Component K)}
    {d : Distribution K} (hc : c ∈ m.distribution.toList) (hl : ∀ b ∈ l, b.Proper)
    (h : remove m.distribution c = .ok d) :
    (m.withDistribution (d.addAll l)).Proper
      ∧ (m.withDistribution (d.addAll l)).bulk + c.bulk ≤ m.bulk + refinementBound l := by
  obtain rfl := remove_ok h
  refine ⟨Distribution.proper_addAll hl (Distribution.proper_erase hm c), ?_⟩
  have hadd := Distribution.refinementBound_addAll l (m.distribution.erase c)
  have herase := Distribution.refinementBound_erase hc
  show refinementBound (Distribution.addAll _ l).toList + _
    ≤ refinementBound m.distribution.toList + _
  omega

theorem bulk_runConvert {a : Aggregation K} (hm : m.Proper)
    (ha : .aggregation a ∈ m.distribution.toList) (h : runConvert m a = .ok m') :
    m'.Proper ∧ m'.bulk < m.bulk := by
  obtain ⟨d, ps, l, hd, hps, hl, rfl⟩ := runConvert_ok h
  obtain ⟨hproper, hlt⟩ := Aggregation.bulk_toParfactors hps
  obtain ⟨hproper, hle⟩ := bulk_normalForms hproper hl
  obtain ⟨hm', hreplace⟩ := bulk_replace hm ha hproper hd
  have hbulk : (Component.aggregation a).bulk = a.bulk := rfl
  exact ⟨hm', by omega⟩

theorem bulk_runCount {p : Parfactor K} {x : LogVar} (hm : m.Proper)
    (hp : .standard p ∈ m.distribution.toList) (h : runCount m p x = .ok m') :
    m'.Proper ∧ m'.bulk < m.bulk := by
  obtain ⟨counted, d, l, hcounted, hd, hl, rfl⟩ := runCount_ok h
  obtain ⟨hproper, hlt⟩ := Parfactor.bulk_count (hm _ hp) hcounted
  obtain ⟨hproper, hle⟩ := bulk_normalForms (fun q hq => List.mem_singleton.mp hq ▸ hproper) hl
  obtain ⟨hm', hreplace⟩ := bulk_replace hm hp hproper hd
  rw [Parfactor.bulk_singleton] at hle
  have hbulk : (Component.standard p).bulk = p.bulk := rfl
  exact ⟨hm', by omega⟩

theorem bulk_runExpand {p : Parfactor K} {f : CountingFormula} (hm : m.Proper)
    (hp : .standard p ∈ m.distribution.toList) (hpos : 0 < f.domainSize)
    (h : runExpand m p f = .ok m') : m'.Proper ∧ m'.bulk < m.bulk := by
  obtain ⟨expanded, d, l, hexpanded, hd, hl, h⟩ := runExpand_ok h
  have hnonempty : f.individuals.individuals ≠ [] := by
    intro hempty
    have hzero : f.individuals.size = 0 := congrArg List.length hempty
    rw [CountingFormula.domainSize, hzero, Nat.zero_sub] at hpos
    exact Nat.lt_irrefl 0 hpos
  obtain ⟨hproper, hlt⟩ := Parfactor.bulk_expandAll (hm _ hp) hnonempty hexpanded
  obtain ⟨hproper, hle⟩ := bulk_normalForms (fun q hq => List.mem_singleton.mp hq ▸ hproper) hl
  obtain ⟨hm', hreplace⟩ := bulk_replace hm hp hproper hd
  obtain ⟨hshattered, hle'⟩ := Marginal.bulk_shatter hm' h
  rw [Parfactor.bulk_singleton] at hle
  have hbulk : (Component.standard p).bulk = p.bulk := rfl
  exact ⟨hshattered, by omega⟩

/-! ### groundings -/

theorem bulk_runGround {p : Parfactor K} {x : LogVar} (hm : m.Proper)
    (hp : .standard p ∈ m.distribution.toList) (hx : x ∈ p.logVars)
    (h : runGround m p x = .ok m') : m'.Proper ∧ m'.bulk < m.bulk := by
  obtain ⟨pieces, d, hpieces, hd, h⟩ := runGround_ok h
  have hbulk : (Component.standard p).bulk = p.bulk := rfl
  have hstandard : ∀ ps : List (Parfactor K), (∀ q ∈ ps, q.Proper) →
      ∀ c ∈ ps.map Component.standard, c.Proper := by
    intro ps hps c hc
    obtain ⟨q, hq, rfl⟩ := List.mem_map.mp hc
    exact hps q hq
  cases hindividuals : (x.domain p.constraints).individuals with
  | cons c cs =>
    rw [hindividuals] at hpieces
    obtain ⟨hproper, hlt⟩ := Parfactor.bulk_groundAll (hm _ hp) hx (by simp) hpieces
    obtain ⟨hm', hreplace⟩ := bulk_replace hm hp (hstandard pieces hproper) hd
    obtain ⟨hshattered, hle⟩ := Marginal.bulk_shatter hm' h
    rw [refinementBound_standard] at hreplace
    exact ⟨hshattered, by omega⟩
  | nil =>
    -- the parfactor comes back as it is, and has no normal form
    rw [hindividuals] at hpieces
    cases hpieces
    obtain ⟨hm', hreplace⟩ := bulk_replace hm hp
      (hstandard [p] fun q hq => List.mem_singleton.mp hq ▸ hm _ hp) hd
    obtain ⟨hshattered, -⟩ := Marginal.bulk_shatter hm' h
    have hnone : (Component.standard p).normalize = .ok none := by
      show (p.normalize.map _) = _
      rw [Parfactor.normalize_eq_none hx hindividuals]
      rfl
    have hmem := Distribution.mem_addAll_erase m.distribution (Component.standard p)
    rw [remove_ok hd] at hm' hreplace h
    have hlt := Marginal.bulk_shatter_lt_of_normalize hm' h hmem fun hsome => by
      rw [hnone] at hsome
      cases hsome
    rw [refinementBound_standard, Parfactor.bulk_singleton] at hreplace
    exact ⟨hshattered, by omega⟩

/-! ### eliminations -/

/-- the components that take part, in their order -/
theorem sublist_of_alignAll? {t : PrvSet} {target : Extent} {cs : List (Component K)}
    {pairs : List (Component K × Parfactor K)} (h : alignAll? t target cs = some pairs) :
    (pairs.map Prod.fst).Sublist cs := by
  induction cs generalizing pairs with
  | nil =>
    cases h
    exact .slnil
  | cons c cs ih =>
    rw [alignAll?] at h
    split at h
    · cases h
    · exact (ih h).cons c
    · obtain ⟨rest, hrest, rfl⟩ := Option.map_eq_some_iff.mp h
      exact (ih hrest).cons_cons c

theorem mem_of_mem_removeAll {cs : List (Component K)} {d d' : Distribution K}
    (h : removeAll d cs = .ok d') : ∀ c ∈ d'.toList, c ∈ d.toList := by
  induction cs generalizing d with
  | nil =>
    cases h
    exact fun c hc => hc
  | cons b cs ih =>
    obtain ⟨e, he, h⟩ := removeAll_cons_ok h
    obtain rfl := remove_ok he
    exact fun c hc => (List.mem_filter.mp (ih h c hc)).1

theorem refinementBound_removeAll {cs : List (Component K)} {d d' : Distribution K}
    (hcs : cs.Pairwise fun a b => compare a b = .lt) (hmem : ∀ c ∈ cs, c ∈ d.toList)
    (h : removeAll d cs = .ok d') :
    refinementBound d'.toList + refinementBound cs ≤ refinementBound d.toList := by
  induction cs generalizing d with
  | nil =>
    cases h
    exact Nat.le_refl _
  | cons c cs ih =>
    obtain ⟨e, he, h⟩ := removeAll_cons_ok h
    obtain rfl := remove_ok he
    obtain ⟨hfirst, hrest⟩ := List.pairwise_cons.mp hcs
    have hleft : ∀ b ∈ cs, b ∈ (d.erase c).toList := fun b hb => List.mem_filter.mpr
      ⟨hmem b (List.mem_cons_of_mem _ hb), by rw [hfirst b hb]; rfl⟩
    have hle := ih hrest hleft h
    have herase := Distribution.refinementBound_erase (hmem c List.mem_cons_self)
    rw [refinementBound_cons]
    omega

theorem bulk_runSumOut {t : PrvSet} {e : SetElimination K} (hm : m.Proper)
    (ht : sumOut? m t = some e) (hfree : e.CaptureFree) (h : runSumOut m e = .ok m') :
    m'.Proper ∧ m'.bulk < m.bulk := by
  obtain ⟨p, ps, product, summed, d, l, haligned, hproduct, hsummed, hd, hl, rfl⟩ := runSumOut_ok h
  obtain ⟨pairs, hpairs, -, rfl⟩ := sumOut?_ok ht
  have hsub := sublist_of_alignAll? hpairs
  have hcarries : ∀ y ∈ pairs, Parfactor.Carries t y.1.bulk y.2 := by
    intro y hy
    obtain ⟨q, k, hq, hmem, -, halign⟩ := (alignAll?_ok hpairs).2 y hy
    have hproper : q.Proper := by
      have hc := hm y.1 hmem
      rwa [hq] at hc
    rw [hq]
    refine Parfactor.bulk_alignAt? hproper (fun f hf => ?_) halign
    refine hfree y.1 (List.mem_map_of_mem hy) (.count f) ?_ f rfl
    rw [hq]
    exact hf
  obtain ⟨hproper, hlt⟩ := Parfactor.bulk_sumOut hcarries haligned hproduct hsummed
  obtain ⟨hproper, hle⟩ := bulk_normalForms (fun q hq => List.mem_singleton.mp hq ▸ hproper) hl
  have hkept := mem_of_mem_removeAll hd
  have hremoved := refinementBound_removeAll
    (m.distribution.components.increasing.sublist hsub) (fun c hc => hsub.subset hc) hd
  have hadd := Distribution.refinementBound_addAll l d
  rw [Parfactor.bulk_singleton] at hle
  rw [← refinementBound_eq] at hlt
  refine ⟨Distribution.proper_addAll hproper fun c hc => hm c (hkept c hc), ?_⟩
  show refinementBound (d.addAll l).toList < refinementBound m.distribution.toList
  omega

/-- **Every operation lowers the bulk.** -/
theorem bulk_run (hm : m.Proper) (hop : op.Eligible m) (hfree : op.CaptureFree)
    (h : op.run m = .ok m') : m'.Proper ∧ m'.bulk < m.bulk := by
  cases op with
  | convert a => exact bulk_runConvert hm hop h
  | shatter => exact ⟨(Marginal.bulk_shatter hm h).1, Marginal.bulk_shatter_lt hm hop h⟩
  | count p x => exact bulk_runCount hm hop.1 h
  | sumOut e =>
    obtain ⟨-, p, -, q, -, -, ht⟩ := hop
    exact bulk_runSumOut hm ht hfree h
  | expand p f => exact bulk_runExpand hm hop.1 hop.2.2.2 h
  | ground p x => exact bulk_runGround hm hop.1 hop.2.1 h

/-! ### what the engine chooses -/

theorem mem_of_mem_parfactors {p : Parfactor K} (hp : p ∈ parfactors m) :
    .standard p ∈ m.distribution.toList := by
  obtain ⟨c, hc, hcp⟩ := List.mem_filterMap.mp hp
  cases c with
  | standard q =>
    cases hcp
    exact hc
  | aggregation a => cases hcp

theorem eligible_of_converts (h : op ∈ converts m) : op.Eligible m := by
  obtain ⟨a, ha, rfl⟩ := List.mem_map.mp h
  obtain ⟨c, hc, hca⟩ := List.mem_filterMap.mp ha
  cases c with
  | standard q => cases hca
  | aggregation b =>
    cases hca
    exact hc

/-- what counting checks before it is offered -/
theorem count?_ok {p : Parfactor K} {x : LogVar} (h : count? m p x = some op) :
    op = count p x ∧ p.isCountable x = true ∧ (p.holder? x).isSome = true := by
  unfold count? at h
  split at h
  · rename_i hchecks
    split at h
    · cases h
    · rename_i hholder
      split at h
      · cases h
      · rw [Bool.and_eq_true] at hchecks
        exact ⟨(Option.some.inj h).symm, hchecks.1, by rw [hholder]; rfl⟩
  · cases h

theorem eligible_of_counts (h : op ∈ counts m) : op.Eligible m := by
  obtain ⟨p, hp, h⟩ := List.mem_flatMap.mp h
  obtain ⟨x, -, h⟩ := List.mem_filterMap.mp h
  obtain ⟨rfl, hchecks⟩ := count?_ok h
  exact ⟨mem_of_mem_parfactors hp, hchecks⟩

theorem mem_of_mem_foldl_pushGroup {es out : List (SetElimination K)} {e : SetElimination K}
    (h : e ∈ es.foldl pushGroup out) : e ∈ out ∨ e ∈ es := by
  induction es generalizing out with
  | nil => exact .inl h
  | cons a es ih =>
    rcases ih h with h | h
    · unfold pushGroup at h
      split at h
      · exact .inl h
      · rcases List.mem_append.mp h with h | h
        · exact .inl h
        · exact .inr (List.mem_cons.mpr (.inl (List.mem_singleton.mp h)))
    · exact .inr (List.mem_cons_of_mem _ h)

theorem eligible_of_sumOuts (hm : m.isShattered = .ok true) (h : op ∈ sumOuts m) :
    op.Eligible m := by
  obtain ⟨e, he, rfl⟩ := List.mem_map.mp h
  rcases mem_of_mem_foldl_pushGroup he with he | he
  · cases he
  · obtain ⟨t, ht, hsum⟩ := List.mem_filterMap.mp he
    obtain ⟨p, hp, ht⟩ := List.mem_flatMap.mp ht
    obtain ⟨ht, hsame⟩ := List.mem_filter.mp ht
    obtain ⟨q, hq, rfl⟩ := List.mem_map.mp ht
    exact ⟨hm, p, mem_of_mem_parfactors hp, q, hq, hsame, hsum⟩

/-- what expansion checks before it is offered -/
theorem expand?_ok {p : Parfactor K} {f : CountingFormula} (h : expand? p f = some op) :
    op = expand p f ∧ .count f ∈ p.prvs ∧ f.excludedVars = [] ∧ 0 < f.domainSize := by
  unfold expand? at h
  split at h
  · rename_i hchecks
    simp only [Parfactor.contains, Bool.and_eq_true, decide_eq_true_eq, List.isEmpty_iff] at hchecks
    exact ⟨(Option.some.inj h).symm, hchecks.1.1, hchecks.1.2, hchecks.2⟩
  · cases h

theorem eligible_of_expands (h : op ∈ expands m) : op.Eligible m := by
  obtain ⟨p, hp, h⟩ := List.mem_flatMap.mp h
  obtain ⟨f, -, h⟩ := List.mem_filterMap.mp h
  obtain ⟨rfl, hchecks⟩ := expand?_ok h
  exact ⟨mem_of_mem_parfactors hp, hchecks⟩

theorem eligible_of_grounds (hm : m.isShattered = .ok true) (h : op ∈ grounds m) :
    op.Eligible m := by
  obtain ⟨p, hp, h⟩ := List.mem_flatMap.mp h
  obtain ⟨x, -, h⟩ := List.mem_filterMap.mp h
  unfold ground? at h
  split at h
  · rename_i hx
    cases h
    exact ⟨mem_of_mem_parfactors hp, hx, hm⟩
  · cases h

end Operation

/-! ## the engine -/

namespace Engine

theorem cheapest?_mem {ops : List (Operation K)} {op : Operation K} (h : cheapest? ops = some op) :
    op ∈ ops := by
  cases ops with
  | nil => cases h
  | cons a ops =>
    have hfold : ∀ (l : List (Operation K)) (best : Operation K),
        l.foldl (fun best op => if op.precedes best then op else best) best ∈ best :: l := by
      intro l
      induction l with
      | nil => exact fun best => List.mem_cons_self
      | cons b l ih =>
        intro best
        rw [List.foldl_cons]
        rcases List.mem_cons.mp (ih (if b.precedes best then b else best)) with hmem | hmem
        · rw [hmem]
          split
          · exact List.mem_cons_of_mem _ List.mem_cons_self
          · exact List.mem_cons_self
        · exact List.mem_cons_of_mem _ (List.mem_cons_of_mem _ hmem)
    cases h
    exact hfold ops a

/-- **The chosen operation is eligible.** -/
theorem eligible_of_choose {c : EngineConfig} {m : Marginal K} {op : Operation K}
    (h : (choose c m).outcome = .ok (some op)) : op.Eligible m := by
  unfold choose at h
  split at h
  · cases h
  · split at h
    · rename_i a ops hconverts
      cases h
      exact Operation.eligible_of_converts (hconverts ▸ List.mem_cons_self)
    · split at h
      · cases h
      · rename_i hshattered
        cases h
        exact hshattered
      · rename_i hshattered
        unfold chooseCandidate at h
        dsimp only at h
        split at h
        · rename_i b hb
          cases h
          have hmem := List.mem_of_mem_filter (List.partition_eq_filter_filter .. ▸ cheapest?_mem hb)
          rcases List.mem_append.mp hmem with hmem | hmem
          · rcases List.mem_append.mp hmem with hmem | hmem
            · exact Operation.eligible_of_sumOuts hshattered hmem
            · exact Operation.eligible_of_counts hmem
          · exact Operation.eligible_of_expands hmem
        · split at h
          · rename_i b hb
            cases h
            exact Operation.eligible_of_grounds hshattered (List.mem_of_mem_filter
              (List.partition_eq_filter_filter .. ▸ cheapest?_mem hb))
          · split at h <;> cases h

/-- an applied step runs the operation that is chosen -/
theorem step_applied {e f : Engine K} {kind : OperationKind} {cost : Cost}
    (h : e.step = (.ok (.applied kind cost), f)) :
    ∃ op, (choose e.config e.marginal).outcome = .ok (some op)
      ∧ op.run e.marginal = .ok f.marginal := by
  unfold step at h
  split at h
  · cases h
  · cases h
  · rename_i op g hn
    obtain ⟨hop, rfl⟩ := Prod.mk.inj hn
    refine ⟨op, hop, ?_⟩
    unfold perform at h
    split at h
    · cases h
    · split at h
      · cases h
      · rename_i m hm
        cases h
        exact hm

/-- what every eligible operation keeps holds on a whole run -/
theorem forall_of_steps {es : Nat → Engine K} {n : Nat} {I : Marginal K → Prop}
    (h : I (es 0).marginal)
    (hsteps : ∀ i < n, ∃ kind cost, (es i).step = (.ok (.applied kind cost), es (i + 1)))
    (hI : ∀ i < n, ∀ op m, (choose (es i).config (es i).marginal).outcome = .ok (some op) →
      op.Eligible (es i).marginal → op.run (es i).marginal = .ok m → I (es i).marginal → I m) :
    ∀ i ≤ n, I (es i).marginal := by
  intro i hi
  induction i with
  | zero => exact h
  | succ i ih =>
    obtain ⟨kind, cost, hstep⟩ := hsteps i (by omega)
    obtain ⟨op, hop, hrun⟩ := step_applied hstep
    exact hI i (by omega) op _ hop (eligible_of_choose hop) hrun (ih (by omega))

/-- **The engine terminates.**  If the formulas of the marginal bind none of its logical variables,
and no elimination that is chosen on the way captures a variable, then every applied step lowers the
bulk, so that no more steps can be applied than the bulk says, whatever the limits are. -/
theorem steps_le_bulk {es : Nat → Engine K} {n : Nat} (hm : (es 0).marginal.Proper)
    (hsteps : ∀ i < n, ∃ kind cost, (es i).step = (.ok (.applied kind cost), es (i + 1)))
    (hfree : ∀ i < n, ∀ op, (choose (es i).config (es i).marginal).outcome = .ok (some op) →
      op.CaptureFree) :
    (∀ i < n, (es (i + 1)).marginal.bulk < (es i).marginal.bulk) ∧ n ≤ (es 0).marginal.bulk := by
  have hrun : ∀ i ≤ n, (es i).marginal.Proper ∧ (es i).marginal.bulk + i ≤ (es 0).marginal.bulk
      ∧ ∀ j < i, (es (j + 1)).marginal.bulk < (es j).marginal.bulk := by
    intro i hi
    induction i with
    | zero => exact ⟨hm, Nat.le_refl _, fun j hj => absurd hj (Nat.not_lt_zero j)⟩
    | succ i ih =>
      obtain ⟨hproper, hle, hbefore⟩ := ih (by omega)
      obtain ⟨kind, cost, hstep⟩ := hsteps i (by omega)
      obtain ⟨op, hop, hrun⟩ := step_applied hstep
      obtain ⟨hproper', hlt⟩ := Operation.bulk_run hproper (eligible_of_choose hop)
        (hfree i (by omega) op hop) hrun
      refine ⟨hproper', by omega, fun j hj => ?_⟩
      rcases Nat.lt_succ_iff_lt_or_eq.mp hj with hj | rfl
      · exact hbefore j hj
      · exact hlt
  obtain ⟨-, hle, hall⟩ := hrun n (Nat.le_refl n)
  exact ⟨hall, by omega⟩

end Engine

/-! ## the counted epidemic -/

open scoped ExactScalar

namespace Epidemic

/-- the engine on the counted epidemic after some steps -/
def engine : Nat → Engine Nat
  | 0 => .start counted .standard
  | i + 1 => (engine i).step.2

/-- a conversion, a shattering, an elimination, an expansion and three more eliminations -/
theorem engine_steps : ∀ i < 7, ∃ kind cost,
    (engine i).step = (.ok (.applied kind cost), engine (i + 1)) := by
  have hok : ∀ i < 7, (engine i).step.1.isOk = true ∧ (engine i).step.1.toOption ≠ some .done := by
    decide +kernel
  intro i hi
  obtain ⟨hok, hdone⟩ := hok i hi
  cases hstep : (engine i).step with
  | mk result e =>
    have hnext : engine (i + 1) = e := congrArg Prod.snd hstep
    rw [hstep] at hok hdone
    match result with
    | .error _ => cases hok
    | .ok .done => exact absurd rfl hdone
    | .ok (.applied kind cost) => exact ⟨kind, cost, by rw [hnext]⟩

/-- no formula is renamed onto its own bound variable on the way -/
theorem engine_captureFree {i : Nat} (hi : i < 7) {op : Operation Nat}
    (hop : (Engine.choose (engine i).config (engine i).marginal).outcome = .ok (some op)) :
    op.CaptureFree := by
  have hfree : ∀ i < 7, ∀ op ∈
      (Engine.choose (engine i).config (engine i).marginal).outcome.toOption.join,
      op.CaptureFree := by
    decide +kernel
  exact hfree i hi op (by rw [hop]; rfl)

theorem steps_le_bulk_counted : (engine 0).marginal.Proper
    ∧ (∀ i < 7, ∃ kind cost, (engine i).step = (.ok (.applied kind cost), engine (i + 1)))
    ∧ (∀ i < 7, (engine (i + 1)).marginal.bulk < (engine i).marginal.bulk)
    ∧ 7 ≤ (engine 0).marginal.bulk := by
  have hm : (engine 0).marginal.Proper := accepted_counted.proper
  exact ⟨hm, engine_steps, Engine.steps_le_bulk hm engine_steps fun i hi _ hop =>
    engine_captureFree hi hop⟩

end Epidemic

end LiftedElimination
