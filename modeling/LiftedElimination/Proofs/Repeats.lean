import LiftedElimination.Proofs.Coverage
import LiftedElimination.Proofs.Guarded

/-!
# Tables of repeated random variables

A table over random variables that repeat has more entries than there are assignments of the distinct
ones; the normal form reads its diagonal only.  So the normal form of a parfactor has at most one
entry for every assignment of the distinct random variables, whatever grounding does to the groups
that are counted.

* `domainSize_le_ground`   a variable that becomes an individual leaves as many to count;
* `Prv.simple`             the atom of a formula over one individual;
* `Parfactor.Simplified`   how far the normal form has come;
* `size_normalize_le_distinct`   the table of the normal form.
-/

namespace LiftedElimination

open Finset

variable {K : Type}

/-! ## groups under grounding -/

namespace Constraint

variable {k d : Constraint} {b : LogVar} {s : Substitution}

/-- what `b` is kept from has been replaced -/
theorem other?_of_apply (hb : s.apply (.var b) = .var b) (hs : ∀ t, s.apply t = .var b → t = .var b)
    (h : k.apply s = some d) {u : Term} (hd : d.other? b = some u) :
    ∃ t, k.other? b = some t ∧ s.apply t = u := by
  have hvar : ∀ x : LogVar, s.apply (.var x) = .var b → x = b := fun x hx => Term.var.inj (hs _ hx)
  rcases sides_of_between h with ⟨hfirst, hsecond⟩ | ⟨hfirst, hsecond⟩ <;>
    rcases other?_eq_some.mp hd with ⟨rfl, rfl⟩ | ⟨hvarb, rfl⟩
  · exact ⟨k.second, other?_eq_some.mpr (.inl ⟨hvar _ hfirst.symm, rfl⟩), hsecond.symm⟩
  · exact ⟨.var k.first, other?_eq_some.mpr (.inr ⟨hs _ (hsecond.symm.trans hvarb), rfl⟩),
      hfirst.symm⟩
  · exact ⟨.var k.first, other?_eq_some.mpr (.inr ⟨hs _ hfirst.symm, rfl⟩), hsecond.symm⟩
  · exact ⟨k.second, other?_eq_some.mpr (.inl ⟨hvar _ (hsecond.symm.trans hvarb), rfl⟩),
      hfirst.symm⟩

end Constraint

namespace CountingFormula

variable {f : CountingFormula} {x : LogVar} {c : Constant}

/-- the constraints that keep the bound variable from another one -/
def partners (f : CountingFormula) : Finset Constraint :=
  f.constraints.toList.toFinset.filter fun k => (k.otherVar? f.bound).isSome

theorem mem_partners {k : Constraint} :
    k ∈ f.partners ↔ k ∈ f.constraints ∧ ∃ y, k.other? f.bound = some (.var y) := by
  rw [partners, mem_filter, List.mem_toFinset, Option.isSome_iff_exists]
  refine and_congr_right fun _ => exists_congr fun y => ?_
  rw [Constraint.otherVar?_eq, Option.bind_eq_some_iff]
  simp

theorem card_partners (f : CountingFormula) : f.partners.card = f.excludedVars.length := by
  rw [partners, excludedVars_eq, List.length_filterMap_eq_countP, List.countP_eq_length_filter,
    ← List.toFinset_filter, List.toFinset_card_of_nodup ((SortedSet.nodup_toList _).filter _)]

/-- what grounding replaces inside of the formula -/
def inside (f : CountingFormula) (x : LogVar) (c : Constant) : Substitution :=
  (Substitution.single ⟨x, .const c⟩).without (· = f.bound)

theorem apply_inside_bound : (f.inside x c).apply (.var f.bound) = .var f.bound :=
  Substitution.apply_without_self _ _

/-- only the grounded variable is replaced -/
theorem apply_inside_cases (f : CountingFormula) (x : LogVar) (c : Constant) (t : Term) :
    (f.inside x c).apply t = t ∨ (t = .var x ∧ (f.inside x c).apply t = .const c) := by
  cases t with
  | const e => exact .inl rfl
  | var y =>
    by_cases hyb : y = f.bound
    · exact .inl (hyb ▸ apply_inside_bound)
    · rw [inside, Substitution.apply_without_ne _ hyb]
      by_cases hyx : y = x
      · rw [hyx]
        exact .inr ⟨rfl, Substitution.apply_single_self _ _⟩
      · exact .inl (Substitution.apply_single_ne hyx)

theorem eq_var_of_apply_inside {y : LogVar} {t : Term} (h : (f.inside x c).apply t = .var y) :
    t = .var y := by
  rcases f.apply_inside_cases x c t with hfixed | ⟨-, hconst⟩
  · exact hfixed.symm.trans h
  · cases hconst.symm.trans h

/-- an exclusion after grounding was one before, of the term that has been replaced -/
theorem exists_of_mem_ground {d : Constraint} {u : Term}
    (hd : d ∈ (f.apply (.single ⟨x, .const c⟩)).constraints) (hu : d.other? f.bound = some u) :
    ∃ k ∈ f.constraints, k.apply (f.inside x c) = some d
      ∧ ∃ t, k.other? f.bound = some t ∧ (f.inside x c).apply t = u := by
  obtain ⟨k, hk, hkd⟩ := SortedSet.mem_filterMap.mp hd
  exact ⟨k, hk, hkd,
    Constraint.other?_of_apply apply_inside_bound (fun _ => eq_var_of_apply_inside) hkd hu⟩

/-- an excluded variable was excluded before, and has not been replaced -/
theorem exists_partner_of_ground {d : Constraint}
    (hd : d ∈ (f.apply (.single ⟨x, .const c⟩)).partners) : ∃ k ∈ f.partners,
      k.apply (f.inside x c) = some d
        ∧ ∀ t, k.other? f.bound = some t → (f.inside x c).apply t = t := by
  obtain ⟨hd, y, hy⟩ := mem_partners.mp hd
  obtain ⟨k, hk, hkd, t, ht, hty⟩ := exists_of_mem_ground hd hy
  cases eq_var_of_apply_inside hty
  refine ⟨k, mem_partners.mpr ⟨hk, y, ht⟩, hkd, fun u hu => ?_⟩
  cases ht.symm.trans hu
  exact hty

/-- an individual that is no longer counted is the one that a variable excluded before has become -/
theorem eq_of_notMem_ground {e : Constant} (he : e ∈ f.individuals)
    (hne : e ∉ (f.apply (.single ⟨x, .const c⟩)).individuals) : e = c ∧ ∃ k ∈ f.partners,
      k.other? f.bound = some (.var x) ∧ (f.inside x c).apply (.var x) = .const c := by
  rw [mem_individuals] at he hne
  obtain ⟨d, hd, hde⟩ := mem_exclusions.mp (not_not.mp fun h => hne ⟨he.1, h⟩)
  obtain ⟨k, hk, -, t, ht, hte⟩ := exists_of_mem_ground hd hde
  rcases f.apply_inside_cases x c t with hfixed | ⟨rfl, hconst⟩
  · rw [hfixed] at hte
    exact absurd (mem_exclusions.mpr ⟨k, hk, hte ▸ ht⟩) he.2
  · exact ⟨(Term.const.inj (hconst.symm.trans hte)).symm, k, mem_partners.mpr ⟨hk, x, ht⟩, ht,
      hconst⟩

/-- there are no more constraints after a substitution than those that they come from -/
theorem card_le_of_apply {s : Substitution} {P Q : Finset Constraint}
    (h : ∀ d ∈ Q, ∃ k ∈ P, k.apply s = some d) : Q.card ≤ P.card := by
  have hsub : Q ⊆ P.image fun k : Constraint => (k.apply s).getD k := by
    intro d hd
    obtain ⟨k, hk, hkd⟩ := h d hd
    refine mem_image.mpr ⟨k, hk, ?_⟩
    rw [hkd]
    rfl
  exact (card_le_card hsub).trans card_image_le

/-- **A variable that becomes an individual leaves as many to count.** -/
theorem domainSize_le_ground (f : CountingFormula) (x : LogVar) (c : Constant) :
    f.domainSize ≤ (f.apply (.single ⟨x, .const c⟩)).domainSize := by
  obtain ⟨g, hg⟩ : ∃ g, g = f.apply (.single ⟨x, .const c⟩) := ⟨_, rfl⟩
  rw [← hg, domainSize, domainSize, ← card_individuals, ← card_individuals, ← card_partners,
    ← card_partners]
  by_cases hlost : ∃ k ∈ f.partners, k.other? f.bound = some (.var x)
      ∧ (f.inside x c).apply (.var x) = .const c
  · -- an exclusion becomes one of the individual, which may be lost
    obtain ⟨k, hk, hkx, hx⟩ := hlost
    have hvars : g.partners.card ≤ (f.partners.erase k).card := by
      refine card_le_of_apply (s := f.inside x c) fun d hd => ?_
      obtain ⟨l, hl, hld, hfix⟩ := exists_partner_of_ground (hg ▸ hd)
      refine ⟨l, mem_erase.mpr ⟨?_, hl⟩, hld⟩
      rintro rfl
      cases hx.symm.trans (hfix _ hkx)
    have hsub : f.individuals.toFinset.erase c ⊆ g.individuals.toFinset := by
      intro e he
      obtain ⟨hec, he⟩ := mem_erase.mp he
      by_contra hne
      exact hec (eq_of_notMem_ground (Population.mem_toFinset.mp he)
        fun h => hne (Population.mem_toFinset.mpr (hg ▸ h))).1
    have hcard := pred_card_le_card_erase.trans (card_le_card hsub)
    rw [card_erase_of_mem hk] at hvars
    have hpos := card_pos.mpr ⟨k, hk⟩
    omega
  · have hvars : g.partners.card ≤ f.partners.card := by
      refine card_le_of_apply (s := f.inside x c) fun d hd => ?_
      obtain ⟨l, hl, hld, -⟩ := exists_partner_of_ground (hg ▸ hd)
      exact ⟨l, hl, hld⟩
    have hsub : f.individuals.toFinset ⊆ g.individuals.toFinset := by
      intro e he
      by_contra hne
      exact hlost (eq_of_notMem_ground (Population.mem_toFinset.mp he)
        fun h => hne (Population.mem_toFinset.mpr (hg ▸ h))).2
    exact tsub_le_tsub (card_le_card hsub) hvars

/-- more individuals have more histograms -/
theorem rangeSize_mono {f g : CountingFormula} (hrange : f.inner.range = g.inner.range)
    (hvalue : 0 < f.inner.range.size) (h : f.domainSize ≤ g.domainSize) :
    f.rangeSize ≤ g.rangeSize := by
  obtain ⟨b, hb⟩ := Nat.exists_eq_add_one_of_ne_zero hvalue.ne'
  have hlength : f.histograms.length ≤ g.histograms.length := by
    rw [histograms, histograms, ← hrange, Histogram.length_all, Histogram.length_all, hb,
      Histogram.length_spreads, Histogram.length_spreads]
    exact Nat.choose_le_choose b (Nat.add_le_add_right h b)
  rw [rangeSize_eq, rangeSize_eq]
  exact min_le_min_right maxWord hlength

end CountingFormula

namespace Prv

variable {q : Prv} {f : CountingFormula} {a : Atom}

theorem HasValues.ground (hq : q.HasValues) (x : LogVar) (c : Constant) :
    (q.apply (.single ⟨x, .const c⟩)).HasValues
      ∧ q.rangeSize ≤ (q.apply (.single ⟨x, .const c⟩)).rangeSize := by
  cases q with
  | atom a => exact ⟨hq, le_rfl⟩
  | count f =>
    exact ⟨hq, CountingFormula.rangeSize_mono rfl hq (f.domainSize_le_ground x c)⟩

/-! ## formulas over one individual -/

/-- the atom of a formula over one individual, any other random variable as it is -/
def simple : Prv → Prv
  | atom a => atom a
  | count f =>
    if f.domainSize = 1 then ((Parfactor.soleAtom? f).map atom).getD (count f) else count f

theorem simple_count (hone : f.domainSize = 1) (h : Parfactor.soleAtom? f = some a) :
    (count f).simple = atom a := by
  rw [simple, if_pos hone, h]
  rfl

/-- a random variable is simple already, or a formula over one individual -/
theorem simple_cases (q : Prv) : q.simple = q ∨ ∃ f a, q = count f ∧ f.domainSize = 1
    ∧ Parfactor.soleAtom? f = some a ∧ q.simple = atom a := by
  cases q with
  | atom a => exact .inl rfl
  | count f =>
    by_cases hone : f.domainSize = 1
    · cases ha : Parfactor.soleAtom? f with
      | none =>
        left
        rw [simple, if_pos hone, ha]
        rfl
      | some a => exact .inr ⟨f, a, rfl, hone, ha, simple_count hone ha⟩
    · exact .inl (if_neg hone)

theorem eq_of_simple_eq_count (h : q.simple = count f) : q = count f := by
  rcases q.simple_cases with hq | ⟨f, a, -, -, -, hq⟩
  · exact hq.symm.trans h
  · cases hq.symm.trans h

theorem base_range_simple (q : Prv) : q.simple.base.range = q.base.range := by
  rcases q.simple_cases with hq | ⟨f, a, rfl, -, ha, hq⟩
  · rw [hq]
  · rw [hq]
    obtain ⟨-, c, -, rfl⟩ := Parfactor.soleAtom?_eq_some ha
    rfl

/-- up to the cut at 64 bits, the atom has a value for every histogram of one individual -/
theorem rangeSize_simple (q : Prv) :
    q.rangeSize = q.simple.rangeSize ∨ q.rangeSize = min q.simple.rangeSize maxWord := by
  rcases q.simple_cases with hq | ⟨f, a, rfl, hone, ha, hq⟩
  · exact .inl (congrArg rangeSize hq.symm)
  · right
    obtain ⟨-, c, -, rfl⟩ := Parfactor.soleAtom?_eq_some ha
    rw [hq]
    exact CountingFormula.rangeSize_of_one hone

theorem rangeSize_le_simple (q : Prv) : q.rangeSize ≤ q.simple.rangeSize := by
  rcases q.rangeSize_simple with h | h
  · exact h.le
  · exact h ▸ min_le_left _ _

theorem simple_rangeSize_le (h : q.rangeSize < maxWord) : q.simple.rangeSize ≤ q.rangeSize := by
  rcases q.rangeSize_simple with heq | heq
  · exact heq.ge
  · rcases min_choice q.simple.rangeSize maxWord with hmin | hmin
    · exact (heq.trans hmin).ge
    · exact absurd (heq.trans hmin) h.ne

end Prv

/-! ## normal forms -/

/-- where the factors of one product are at most those of another one that is no larger, they are the
same -/
theorem eq_of_prod_le {α : Type} {l : List α} {φ ψ : α → Nat} (hpos : ∀ x ∈ l, 0 < φ x)
    (hle : ∀ x ∈ l, φ x ≤ ψ x) (h : (l.map ψ).prod ≤ (l.map φ).prod) : ∀ x ∈ l, ψ x = φ x := by
  induction l with
  | nil => exact fun x hx => absurd hx List.not_mem_nil
  | cons a l ih =>
    rw [List.forall_mem_cons] at hpos hle
    rw [List.map_cons, List.map_cons, List.prod_cons, List.prod_cons] at h
    have hprod : (l.map φ).prod ≤ (l.map ψ).prod := List.prod_le_prod' hle.2
    have hrest : 0 < (l.map φ).prod := List.prod_pos fun n hn => by
      obtain ⟨x, hx, rfl⟩ := List.mem_map.mp hn
      exact hpos.2 x hx
    refine List.forall_mem_cons.mpr ⟨le_antisymm ?_ hle.1, ih hpos.2 hle.2 ?_⟩
    · exact Nat.le_of_mul_le_mul_right ((Nat.mul_le_mul_left _ hprod).trans h) hrest
    · exact Nat.le_of_mul_le_mul_left ((Nat.mul_le_mul_right _ hle.1).trans h) hpos.1

/-- distinct images have a product at most that of the distinct elements -/
theorem prod_le_of_images {α β : Type} [DecidableEq β] {s : Finset α} {t : Finset β} {τ : α → β}
    {φ : α → Nat} {ψ : β → Nat} (hpos : ∀ x ∈ s, 0 < φ x) (hle : ∀ x ∈ s, ψ (τ x) ≤ φ x)
    (ht : ∀ y ∈ t, ∃ x ∈ s, τ x = y) : ∏ y ∈ t, ψ y ≤ ∏ x ∈ s, φ x := by
  obtain ⟨u, hus, hinj, rfl⟩ := exists_subset_injOn_image_eq_of_surjOn (s : Set α) t ht
  have hus : u ⊆ s := hus
  calc ∏ y ∈ u.image τ, ψ y = ∏ x ∈ u, ψ (τ x) := prod_image hinj
    _ ≤ ∏ x ∈ u, φ x := prod_le_prod' fun x hx => hle x (hus hx)
    _ ≤ ∏ x ∈ s, φ x := prod_le_prod_of_subset_of_one_le' hus fun x hx _ => hpos x hx

namespace Parfactor

variable {p q g : Parfactor K}

/-- grounding replaces every random variable by one with as many values at least -/
theorem exists_of_ground (h : groundSingletons logVars constraints apply p = .ok (some g)) :
    ∃ σ : Prv → Prv, g.prvs = p.prvs.map σ
      ∧ ∀ x, x.HasValues → (σ x).HasValues ∧ x.rangeSize ≤ (σ x).rangeSize := by
  refine (groundSingletons_ok (I := fun o => ∀ g, o = some g → ∃ σ : Prv → Prv,
    g.prvs = p.prvs.map σ ∧ ∀ x, x.HasValues → (σ x).HasValues ∧ x.rangeSize ≤ (σ x).rangeSize)
    (fun _ _ _ => nofun) (fun q x c hq _ _ r hr => ?_) (fun r hr => ?_) h).1 g rfl
  · obtain ⟨σ, hprvs, hσ⟩ := hq q rfl
    obtain ⟨ds, -, rfl⟩ := apply_eq_some hr
    refine ⟨fun y => (σ y).apply (.single ⟨x, .const c⟩), ?_, fun y hy => ?_⟩
    · rw [hprvs, List.map_map]
      rfl
    · obtain ⟨hvalues, hle⟩ := hσ y hy
      obtain ⟨hground, hmono⟩ := hvalues.ground x c
      exact ⟨hground, hle.trans hmono⟩
  · obtain rfl := Option.some.inj hr
    exact ⟨id, (List.map_id _).symm, fun y hy => ⟨hy, le_rfl⟩⟩

/-- how far the normal form of `g` has come: all random variables are there yet, or its table has
been read to the end -/
structure Simplified (g p : Parfactor K) : Prop where
  source : ∀ y ∈ p.prvs, ∃ x ∈ g.prvs, y = x ∨ y = x.simple
  table : (p.factor.size = g.factor.size
      ∧ List.Forall₂ (fun y x => y = x ∨ y = x.simple) p.prvs g.prvs)
    ∨ (p.factor.size = p.sizes.prod ∧ p.sizes.prod ≤ Index.maxEntries
      ∧ g.sizes.prod ≤ g.factor.size)

namespace Simplified

theorem refl (g : Parfactor K) : Simplified g g where
  source y hy := ⟨y, hy, .inl rfl⟩
  table := .inl ⟨rfl, List.forall₂_same.mpr fun _ _ => .inl rfl⟩

theorem values (h : Simplified g p) (hg : ∀ x ∈ g.prvs, x.HasValues) :
    ∀ y ∈ p.prvs, y.HasValues := by
  intro y hy
  obtain ⟨x, hx, rfl | rfl⟩ := h.source y hy
  · exact hg _ hx
  · rw [Prv.HasValues, Prv.base_range_simple]
    exact hg _ hx

theorem read (h : Simplified g p) (hcovers : p.Covers) : g.sizes.prod ≤ g.factor.size := by
  rcases h.table with ⟨hfactor, hprvs⟩ | ⟨-, -, hread⟩
  · refine le_trans ?_ (hcovers.trans hfactor.le)
    refine List.Forall₂.prod_le_prod' (List.forall₂_map_left_iff.mpr
      (List.forall₂_map_right_iff.mpr (hprvs.flip.imp fun x y hyx => ?_)))
    rcases hyx with rfl | rfl
    · exact le_rfl
    · exact x.rangeSize_le_simple
  · exact hread

theorem rebuilt {prvs : List Prv} {cs : ConstraintSet} {entry : List Nat → Except Error K}
    (h : Simplified g p) (hcovers : p.Covers) (hsub : ∀ y ∈ prvs, y ∈ p.prvs)
    (hq : rebuild cs prvs entry = .ok q) : Simplified g q := by
  obtain ⟨hsize, hle⟩ := size_eq_of_rebuild hq
  exact ⟨fun y hy => h.source y (hsub y ((rebuild_ok hq).2.1 ▸ hy)),
    .inr ⟨hsize, hle, h.read hcovers⟩⟩

variable [Scalar K]

theorem simplifyRound (h : Simplified g p) (hg : ∀ x ∈ g.prvs, x.HasValues)
    (hq : p.simplifyRound = .ok (some q)) : Simplified g q := by
  obtain ⟨i, f, hi, ⟨hzero, hdrop⟩ | ⟨hone, a, ha, rfl⟩⟩ := simplifyRound_ok hq
  · exact h.rebuilt (covers_dropPrv (h.values hg) hi hzero hdrop)
      (fun _ hy => List.mem_of_mem_eraseIdx hy) hdrop
  · obtain ⟨hlt, hf⟩ := List.getElem?_eq_some_iff.mp hi
    have hsimple := Prv.simple_count hone ha
    -- the formula that is replaced has not been replaced before
    have hsource : ∀ x : Prv, Prv.count f = x ∨ Prv.count f = x.simple → Prv.atom a = x.simple := by
      rintro x (rfl | hx)
      · exact hsimple.symm
      · rw [Prv.eq_of_simple_eq_count hx.symm, hsimple]
    refine ⟨fun y hy => ?_, ?_⟩
    · rcases List.mem_or_eq_of_mem_set hy with hy | rfl
      · exact h.source y hy
      · obtain ⟨x, hx, hfx⟩ := h.source _ (List.mem_of_getElem? hi)
        exact ⟨x, hx, .inr (hsource x hfx)⟩
    · rcases h.table with ⟨hfactor, hprvs⟩ | ⟨hsize, hle, hread⟩
      · have hlt' : i < g.prvs.length := hprvs.length_eq ▸ hlt
        have hx := hprvs.get hlt hlt'
        rw [List.get_eq_getElem, List.get_eq_getElem, hf] at hx
        refine .inl ⟨hfactor, forall₂_set (List.getElem?_eq_getElem hlt') (.inr (hsource _ hx))
          (?_ : List.Forall₂ _ p.prvs (g.prvs.set i g.prvs[i]))⟩
        rwa [List.set_getElem_self]
      · obtain ⟨-, c, -, rfl⟩ := soleAtom?_eq_some ha
        have hprod := prod_sizes_replacePrv (a := f.instantiate (.const c)) hle hi hone rfl
        exact .inr ⟨hsize.trans hprod.symm, hprod.trans_le hle, hread⟩

theorem mergeRound (h : Simplified g p) (hg : ∀ x ∈ g.prvs, x.HasValues)
    (hq : p.mergeRound = .ok (some q)) : Simplified g q := by
  obtain ⟨i, j, r, -, -, -, hmerge⟩ := mergeRound_ok hq
  exact h.rebuilt (covers_mergeRound (h.values hg) hq)
    (fun _ hy => List.mem_of_mem_eraseIdx hy) hmerge

end Simplified

/-- in a normal form atoms stand where formulas over one individual were -/
theorem eq_simple_of_mem (hq : q.trivialFormula? = none) {x y : Prv} (hy : y ∈ q.prvs)
    (h : y = x ∨ y = x.simple) : y = x.simple := by
  rcases h with rfl | h
  · rcases y.simple_cases with hsame | ⟨f, a, rfl, hone, ha, -⟩
    · exact hsame.symm
    · cases ha.symm.trans ((trivialFormula?_eq_none_iff.mp hq f hy).2 hone)
  · exact h

/-- a normal form comes from a grounded parfactor, with ranges that are as large at least -/
theorem simplified_of_normalize [Scalar K] (hp : ∀ x ∈ p.prvs, x.HasValues)
    (h : p.normalize = .ok (some q)) : ∃ (g : Parfactor K) (σ : Prv → Prv), Simplified g q
      ∧ g.factor.size = p.factor.size ∧ g.prvs = p.prvs.map σ
      ∧ ∀ x ∈ p.prvs, x.rangeSize ≤ (σ x).rangeSize := by
  obtain ⟨_, hg, ⟨-, hr⟩ | ⟨g, s, u, rfl, hs, hu, hqu⟩⟩ := normalize_ok h
  · cases hr
  cases hqu
  obtain ⟨σ, hprvs, hσ⟩ := exists_of_ground hg
  have hvalues : ∀ x ∈ g.prvs, x.HasValues := by
    rw [hprvs]
    intro x hx
    obtain ⟨y, hy, rfl⟩ := List.mem_map.mp hx
    exact (hσ y (hp y hy)).1
  have hsimple : Simplified g s := (settle_ok (p := Simplified g)
    (fun _ _ ha hab => ha.simplifyRound hvalues hab) (.refl g) hs).1
  have hmerged : Simplified g q := (settle_ok (p := Simplified g)
    (fun _ _ ha hab => ha.mergeRound hvalues hab) hsimple hu).1
  exact ⟨g, σ, hmerged, congrArg Factor.size (factor_ground hg), hprvs, fun x hx =>
    (hσ x (hp x hx)).2⟩

/-- where every random variable is there yet, and the atoms stand for the formulas over one
individual, no random variable was listed twice -/
theorem nodup_of_forall₂ {σ : Prv → Prv} (hq : q.Stable)
    (h : List.Forall₂ (fun y x => y = x ∨ y = x.simple) q.prvs (p.prvs.map σ)) : p.prvs.Nodup := by
  have hmap : q.prvs = p.prvs.map fun x => (σ x).simple := by
    refine List.ext_getElem (by rw [h.length_eq, List.length_map, List.length_map])
      fun i hi hi' => ?_
    have hx := h.get hi (h.length_eq ▸ hi)
    rw [List.get_eq_getElem, List.get_eq_getElem, List.getElem_map] at hx
    rw [List.getElem_map]
    exact eq_simple_of_mem hq.simple (List.getElem_mem hi) hx
  exact .of_map _ (hmap ▸ hq.nodup)

/-- **The normal form has at most one entry for every assignment of the distinct random
variables.** -/
theorem size_normalize_le_distinct [Scalar K] (hp : ∀ x ∈ p.prvs, x.HasValues)
    (hsize : p.factor.size = p.sizes.prod) (hle : p.sizes.prod ≤ Index.maxEntries)
    (h : p.normalize = .ok (some q)) :
    q.factor.size ≤ ∏ x ∈ p.prvs.toFinset, x.rangeSize := by
  have hstable := stable_of_normalize h
  obtain ⟨g, σ, ⟨hsource, htable⟩, hfactor, hprvs, hσ⟩ := simplified_of_normalize hp h
  rw [hsize] at hfactor
  rcases htable with ⟨hq, hall⟩ | ⟨hq, -, hread⟩
  · -- nothing has been dropped or merged, so nothing repeats
    have hnodup : p.prvs.Nodup := nodup_of_forall₂ hstable (hprvs ▸ hall)
    rw [hq, hfactor, List.prod_toFinset _ hnodup]
    rfl
  · -- the table that has been read is not larger, so grounding has not made any range larger
    have hsame : ∀ x ∈ p.prvs, (σ x).rangeSize = x.rangeSize := by
      refine eq_of_prod_le (fun x hx => (hp x hx).rangeSize_pos) hσ ?_
      rw [hfactor, sizes, hprvs, List.map_map] at hread
      exact hread
    have hpos : 0 < p.sizes.prod := prod_rangeSize_pos fun x hx => (hp x hx).rangeSize_pos
    rw [hq, sizes, ← List.prod_toFinset _ hstable.nodup]
    refine prod_le_of_images (τ := fun x => (σ x).simple)
      (fun x hx => (hp x (List.mem_toFinset.mp hx)).rangeSize_pos) (fun x hx => ?_) fun y hy => ?_
    · have hx := List.mem_toFinset.mp hx
      have hlt : x.rangeSize < maxWord := rangeSize_lt_of_le hle hpos hx
      rw [← hsame x hx] at hlt ⊢
      exact Prv.simple_rangeSize_le hlt
    · have hy := List.mem_toFinset.mp hy
      obtain ⟨z, hz, hyz⟩ := hsource y hy
      rw [hprvs] at hz
      obtain ⟨x, hx, rfl⟩ := List.mem_map.mp hz
      exact ⟨x, List.mem_toFinset.mpr hx, (eq_simple_of_mem hstable.simple hy hyz).symm⟩

end Parfactor

end LiftedElimination
