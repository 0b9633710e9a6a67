import LiftedElimination.Proofs.Alignment
import LiftedElimination.Proofs.Refinement
import LiftedElimination.Proofs.SumOut

/-!
# Eliminating a set of random variables

The parfactors that hold the set are aligned with it, multiplied and summed out; the other
components do not depend on it.  So the set is summed out of the whole marginal, under conditions
that the eligibility of the elimination does not check.

* `PrvSet.groundings`, `PrvSet.owned`   what the set denotes;
* `SetElimination.Sums`   the conditions;
* `TakesPart`             a component that holds the set, with its aligned form;
* `sumsOut_product`       the set can be summed out of the product;
* `sumsTo_of_product`     what that does to a marginal that the product is a part of;
* `sumsTo_runSumOut`      the result is the marginal with the set summed out;
* `sumOut_meaning`        it means the sum over all assignments of the set.
-/

namespace LiftedElimination

open Finset

variable {K : Type}

/-! ## the set -/

namespace PrvSet

/-- the groundings of the free variables that satisfy the constraints -/
def groundings (s : PrvSet) : Finset Valuation := s.constraints.solutions s.prv.freeVars

/-- the ground random variables that the set is about -/
def owned (s : PrvSet) : Finset RandomVariable := s.groundings.biUnion s.prv.owned

/-- the builder has accepted the formula of the set -/
def Accepted (s : PrvSet) : Prop := ∀ f, s.prv = .count f → f.Accepted

/-- the formula of the set is exact under every grounding -/
def Exact (s : PrvSet) : Prop := ∀ γ ∈ s.groundings, s.prv.Exact γ

theorem Accepted.valid {s : PrvSet} (h : s.Accepted) : s.prv.Valid := by
  cases hs : s.prv with
  | atom a => trivial
  | count f => exact (h f hs).valid

/-- groundings of variables that all occur in the atom share nothing -/
theorem disjoint_of_subset {s : PrvSet} (h : ∀ x ∈ s.prv.freeVars, x ∈ s.prv.base.variables)
    (hs : s.prv.Valid) {γ δ : Valuation} (hγ : γ ∈ s.groundings) (hδ : δ ∈ s.groundings)
    (hne : γ ≠ δ) : Disjoint (s.prv.owned γ) (s.prv.owned δ) := by
  refine disjoint_left.mpr fun v hvγ hvδ => hne ?_
  exact ConstraintSet.eq_of_mem_solutions hγ hδ fun x hx =>
    Prv.eq_of_mem_owned hs hx (h x hx) hvγ hvδ

end PrvSet

/-- the variables that stay when the set is summed out of the product -/
def SetElimination.staying [Scalar K] (e : SetElimination K) : List LogVar :=
  Parfactor.varsOf ((e.aligned.flatMap Parfactor.prvs).filter (· ≠ e.eliminated.prv))

/-- **When summing out is summation**: no two groundings of the set share a ground random variable,
the groundings of the variables that stay extend to equally many groundings of the set, these can be
counted, and no formula of a component that holds the set binds a free variable of the set. -/
structure SetElimination.Sums [Scalar K] (e : SetElimination K) : Prop where
  disjoint : ∀ γ ∈ e.eliminated.groundings, ∀ δ ∈ e.eliminated.groundings, γ ≠ δ →
    Disjoint (e.eliminated.prv.owned γ) (e.eliminated.prv.owned δ)
  even : e.eliminated.constraints.Even e.eliminated.prv.freeVars e.staying
  few : e.eliminated.groundings.card ≤ Cost.limit
  free : ∀ p, Component.standard p ∈ e.involved → ∀ f, Prv.count f ∈ p.prvs →
    f.bound ∉ e.eliminated.prv.freeVars

theorem ConstraintSet.Even.congr {cs : ConstraintSet} {all all' vars vars' : List LogVar}
    (h : cs.Even all vars) (hall : ∀ x, x ∈ all ↔ x ∈ all') (hvars : ∀ x, x ∈ vars ↔ x ∈ vars') :
    cs.Even all' vars' := by
  obtain ⟨k, hpos, hk⟩ := h
  refine ⟨k, hpos, fun δ hδ => ?_⟩
  rw [← ConstraintSet.solutions_congr hvars] at hδ
  rw [← hk δ hδ, above, above, ConstraintSet.solutions_congr hall]
  refine congrArg card (filter_congr fun γ _ => ⟨fun heq x hx => ?_, fun heq x hx => ?_⟩)
  · exact heq x ((hvars x).mp hx)
  · exact heq x ((hvars x).mpr hx)

/-- nothing stays, and all groundings are one group -/
theorem ConstraintSet.even_nil {cs : ConstraintSet} {all : List LogVar}
    (h : (cs.solutions all).Nonempty) : cs.Even all [] := by
  refine ⟨(cs.solutions all).card, card_pos.mpr h, fun δ _ => ?_⟩
  rw [above, filter_true_of_mem fun γ _ x hx => absurd hx List.not_mem_nil]

/-! ## who takes part -/

namespace Operation

variable [Scalar K] {s : PrvSet} {target : Extent} {c : Component K}

omit [Scalar K] in
/-- every place but the one that is found holds an extent that is disjoint from the set -/
theorem hits?_ok {l : List (Prv × Nat)} {hit r : Option Nat} (h : hits? c target l hit = some r) :
    (∀ k, hit = some k → r = some k)
      ∧ ∀ x ∈ l, (Extent.of x.1 c.constraints).compare target = .disjoint ∨ r = some x.2 := by
  induction l generalizing hit with
  | nil =>
    cases h
    exact ⟨fun _ hk => hk, fun x hx => absurd hx List.not_mem_nil⟩
  | cons x l ih =>
    obtain ⟨q, j⟩ := x
    unfold hits? at h
    split at h
    · rename_i hcompare
      obtain ⟨hhit, hrest⟩ := ih h
      refine ⟨hhit, fun x hx => ?_⟩
      rcases List.mem_cons.mp hx with rfl | hx
      · exact .inl hcompare
      · exact hrest x hx
    · obtain ⟨hhit, hrest⟩ := ih h
      refine ⟨nofun, fun x hx => ?_⟩
      rcases List.mem_cons.mp hx with rfl | hx
      · exact .inr (hhit j rfl)
      · exact hrest x hx
    · cases h

theorem involvement_untouched (h : involvement s target c = .untouched) :
    hits? c target c.prvs.zipIdx none = some none := by
  unfold involvement at h
  split at h
  · cases h
  · assumption
  · split at h
    · cases h
    · split at h <;> cases h

theorem involvement_aligned {p' : Parfactor K} (h : involvement s target c = .aligned p') :
    ∃ p k, c = .standard p ∧ hits? c target c.prvs.zipIdx none = some (some k)
      ∧ alignAt? s p k = some p' := by
  unfold involvement at h
  split at h
  · cases h
  · cases h
  · rename_i k hhits
    split at h
    · cases h
    · rename_i p
      split at h
      · cases h
      · rename_i hp
        cases h
        exact ⟨p, k, rfl, hhits, hp⟩

/-- a component that is not aligned is untouched, and the aligned ones are parfactors -/
theorem alignAll?_ok {cs : List (Component K)} {pairs : List (Component K × Parfactor K)}
    (h : alignAll? s target cs = some pairs) :
    (∀ c ∈ cs, c ∈ pairs.map Prod.fst ∨ hits? c target c.prvs.zipIdx none = some none)
      ∧ ∀ x ∈ pairs, ∃ p k, x.1 = .standard p ∧ x.1 ∈ cs
        ∧ hits? x.1 target x.1.prvs.zipIdx none = some (some k) ∧ alignAt? s p k = some x.2 := by
  induction cs generalizing pairs with
  | nil =>
    cases h
    exact ⟨fun c hc => absurd hc List.not_mem_nil, fun x hx => absurd hx List.not_mem_nil⟩
  | cons c cs ih =>
    rw [alignAll?] at h
    split at h
    · cases h
    · rename_i hinv
      obtain ⟨hleft, hright⟩ := ih h
      refine ⟨fun d hd => ?_, fun x hx => ?_⟩
      · rcases List.mem_cons.mp hd with rfl | hd
        · exact .inr (involvement_untouched hinv)
        · exact hleft d hd
      · obtain ⟨p, k, hp, hmem, hrest⟩ := hright x hx
        exact ⟨p, k, hp, List.mem_cons_of_mem _ hmem, hrest⟩
    · rename_i p' hinv
      obtain ⟨rest, hrest, rfl⟩ := Option.map_eq_some_iff.mp h
      obtain ⟨hleft, hright⟩ := ih hrest
      refine ⟨fun d hd => ?_, fun x hx => ?_⟩
      · rcases List.mem_cons.mp hd with rfl | hd
        · exact .inl List.mem_cons_self
        · exact (hleft d hd).imp_left (List.mem_cons_of_mem _)
      · rcases List.mem_cons.mp hx with rfl | hx
        · obtain ⟨p, k, hp, hhits, halign⟩ := involvement_aligned hinv
          exact ⟨p, k, hp, List.mem_cons_self, hhits, halign⟩
        · obtain ⟨p, k, hp, hmem, hrest⟩ := hright x hx
          exact ⟨p, k, hp, List.mem_cons_of_mem _ hmem, hrest⟩

/-- what the eligibility of an elimination has checked -/
theorem sumOut?_ok {m : Marginal K} {e : SetElimination K} (h : sumOut? m s = some e) :
    ∃ pairs, alignAll? s (.ofSet s) m.distribution.toList = some pairs ∧ m.keeps s = false
      ∧ e = ⟨s, pairs.map Prod.fst, pairs.map Prod.snd⟩ := by
  unfold sumOut? at h
  split at h
  · cases h
  · rename_i hkeeps
    split at h
    · cases h
    · cases h
    · rename_i pairs _ hpairs
      exact ⟨pairs, hpairs, Bool.eq_false_of_not_eq_true hkeeps, (Option.some.inj h).symm⟩

/-- some component takes part -/
theorem aligned_ne_nil {t : PrvSet} {e : SetElimination K} (h : sumOut? m t = some e) :
    e.aligned ≠ [] := by
  unfold sumOut? at h
  split at h
  · cases h
  · split at h
    · cases h
    · cases h
    · rename_i pairs hne _
      cases h
      exact fun hnil => hne (List.map_eq_nil_iff.mp hnil)

end Operation

namespace Operation

variable [ExactScalar K] {sig : Signature} {m m' : Marginal K} {s : PrvSet}
  {e : SetElimination K}

/-- what is removed has been there -/
theorem mem_of_remove {b : Component K} {d d' : Distribution K} (h : remove d b = .ok d') :
    b ∈ d.toList := by
  unfold remove at h
  split at h
  · exact SortedSet.contains_iff_mem.mp ‹_›
  · cases h

/-- one after the other, the components are taken away -/
theorem removeAll_ok {cs : List (Component K)} {d d' : Distribution K}
    (h : removeAll d cs = .ok d') : (∀ c, c ∈ d'.toList ↔ c ∈ d.toList ∧ c ∉ cs)
      ∧ ∀ w, meaningOf d'.toList w * meaningOf cs w = meaningOf d.toList w := by
  induction cs generalizing d with
  | nil =>
    cases h
    exact ⟨fun c => by simp, fun w => mul_one _⟩
  | cons c cs ih =>
    obtain ⟨d₁, hd₁, h⟩ := removeAll_cons_ok h
    have hc : c ∈ d.components := mem_of_remove hd₁
    obtain rfl := remove_ok hd₁
    obtain ⟨hmem, hmeaning⟩ := ih h
    refine ⟨fun b => ?_, fun w => ?_⟩
    · have herase : b ∈ (d.erase c).toList ↔ b ∈ d.toList ∧ b ≠ c := by
        show b ∈ d.components.erase c ↔ _
        rw [SortedSet.erase, SortedSet.mem_filter, bne_iff_ne, Ne, Std.compare_eq_iff_eq, eq_comm]
        exact Iff.rfl
      rw [hmem, herase, List.mem_cons, not_or, and_assoc]
    · rw [meaningOf_cons, mul_left_comm, hmeaning w, mul_comm]
      exact Distribution.meaningOf_erase hc w

/-! ## the components that take part -/

/-- a parfactor that holds the set, aligned, and otherwise only extents that are disjoint from it -/
structure TakesPart (s : PrvSet) (c : Component K) (p' : Parfactor K) : Prop where
  involved : ∃ p k, c = .standard p ∧ Aligned s p k p' ∧ p.Sound ∧ ∀ j q, j ≠ k →
    p.prvs[j]? = some q → (Extent.of q p.constraints).compare (.ofSet s) = .disjoint

/-- the pairs of an elimination take part -/
theorem takesPart_of_alignAll? (hsound : ∀ c ∈ m.distribution.toList, c.Sound)
    (hs : s.prv.Valid) (hexact : ∀ γ ∈ s.groundings, s.prv.Exact γ)
    {pairs : List (Component K × Parfactor K)}
    (h : alignAll? s (.ofSet s) m.distribution.toList = some pairs)
    (hfree : ∀ p, Component.standard p ∈ pairs.map Prod.fst → ∀ f, Prv.count f ∈ p.prvs →
      f.bound ∉ s.prv.freeVars) : ∀ x ∈ pairs, TakesPart s x.1 x.2 := by
  intro x hx
  obtain ⟨p, k, hp, hmem, hhits, halign⟩ := (alignAll?_ok h).2 x hx
  have hpsound : p.Sound := by
    have hx := hsound x.1 hmem
    rwa [hp] at hx
  rw [hp] at hhits
  refine ⟨p, k, hp, aligned_of_alignAt? hpsound hs hexact
    (hfree p (hp ▸ List.mem_map_of_mem hx)) halign, hpsound, fun j q hj hq => ?_⟩
  rcases (hits?_ok hhits).2 (q, j) (List.mk_mem_zipIdx_iff_getElem?.mpr hq) with hdisjoint | hk
  · exact hdisjoint
  · exact absurd (Option.some.inj hk).symm hj

variable {c : Component K} {p' : Parfactor K}

theorem Aligned.solutions_eq {p : Parfactor K} {k : Nat} (h : Aligned s p k p') :
    p'.solutions = s.groundings := by
  rw [Parfactor.solutions, h.constraints, ConstraintSet.solutions_congr h.logVars]
  rfl

/-- the ground random variables of the set are instances of its extent -/
theorem Aligned.atom_mem_instances {p : Parfactor K} {k : Nat} (h : Aligned s p k p')
    {v : RandomVariable} (hv : v ∈ s.owned) : v.atom ∈ (Extent.ofSet s).instances := by
  obtain ⟨γ, hγ, hv⟩ := mem_biUnion.mp hv
  rw [← h.solutions_eq] at hγ
  obtain ⟨ε, hε, rfl, -⟩ := Parfactor.exists_instance h.sound.proper h.mem hγ hv
  rw [h.constraints] at hε
  refine ⟨ε, hε, ?_⟩
  rw [Extent.ofSet, Extent.of_atom]
  rfl

/-- the other random variables of an aligned parfactor own nothing of the set -/
theorem TakesPart.disjoint_others (h : TakesPart s c p') (hc : c.IsOver sig)
    (hs : s.prv.base.IsOver sig) {t : Prv} (ht : t ∈ p'.prvs) (hne : t ≠ s.prv) {δ : Valuation}
    (hδ : δ ∈ p'.solutions) : Disjoint (t.owned δ) s.owned := by
  obtain ⟨p, k, rfl, haligned, hp, hothers⟩ := h.involved
  obtain ⟨j, q, hj, hq, howned⟩ := (haligned.others t ht).resolve_left hne
  obtain ⟨γ, hγ, heq⟩ := howned δ hδ
  have hmem : q ∈ p.prvs := List.mem_of_getElem? hq
  have hdisjoint := Extent.disjoint_of_compare (hc q hmem) hs (hothers j q hj hq)
  rw [heq, disjoint_left]
  intro v hv hvs
  obtain ⟨ε, hε, rfl, -⟩ := Parfactor.exists_instance hp.proper hmem hγ hv
  refine Set.disjoint_left.mp hdisjoint ⟨ε, hε, ?_⟩ (haligned.atom_mem_instances hvs)
  rw [Extent.of_atom]
  rfl

theorem TakesPart.sound (h : TakesPart s c p') : p'.Sound := by
  obtain ⟨p, k, rfl, haligned, -⟩ := h.involved
  exact haligned.sound

theorem TakesPart.solutions_eq (h : TakesPart s c p') : p'.solutions = s.groundings := by
  obtain ⟨p, k, rfl, haligned, -⟩ := h.involved
  exact haligned.solutions_eq

theorem TakesPart.scope_subset (h : TakesPart s c p') : p'.scope ⊆ c.scope := by
  obtain ⟨p, k, rfl, haligned, -⟩ := h.involved
  exact haligned.scope

theorem TakesPart.meaning_eq (h : TakesPart s c p') {w : World} (hw : w.Legal c.scope) :
    p'.meaning w = c.meaning w := by
  obtain ⟨p, k, rfl, haligned, -⟩ := h.involved
  exact haligned.meaning w hw

omit [ExactScalar K] in
/-- a component that is not aligned owns nothing of the set -/
theorem disjoint_of_untouched (hc : c.Sound) (hover : c.IsOver sig) (hs : s.prv.base.IsOver sig)
    (h : hits? c (.ofSet s) c.prvs.zipIdx none = some none)
    (howned : ∀ v ∈ s.owned, v.atom ∈ (Extent.ofSet s).instances) :
    Disjoint c.scope s.owned := by
  refine disjoint_left.mpr fun v hv hvs => ?_
  obtain ⟨q, hq, hinstance⟩ := Component.exists_instance hc hv
  obtain ⟨j, hj⟩ := List.mem_iff_getElem?.mp hq
  rcases (hits?_ok h).2 (q, j) (List.mk_mem_zipIdx_iff_getElem?.mpr hj) with hdisjoint | hk
  · exact Set.disjoint_left.mp (Extent.disjoint_of_compare (hover q hq) hs hdisjoint) hinstance
      (howned v hvs)
  · cases hk

/-! ## the product of the aligned parfactors -/

/-- the logical variables that stay are those that stay in the product -/
theorem mem_staying_product {p r : Parfactor K} {ps : List (Parfactor K)} {y : LogVar}
    (haligned : e.aligned = p :: ps) (hprvs : ∀ t, t ∈ r.prvs ↔ ∃ q ∈ p :: ps, t ∈ q.prvs)
    (hnot : e.eliminated.prv ∉ r.prvs.erase e.eliminated.prv) :
    y ∈ e.staying ↔ y ∈ r.staying e.eliminated.prv := by
  rw [SetElimination.staying, Parfactor.mem_varsOf, Parfactor.mem_staying]
  refine exists_congr fun t => and_congr_left fun _ => ?_
  rw [List.mem_filter, List.mem_flatMap, haligned, decide_eq_true_eq, ← hprvs]
  constructor
  · rintro ⟨ht, hne⟩
    exact (List.mem_erase_of_ne hne).mpr ht
  · intro ht
    have hne : t ≠ e.eliminated.prv := fun h => hnot (h ▸ ht)
    exact ⟨(List.mem_erase_of_ne hne).mp ht, hne⟩

/-- **The set can be summed out of the product** of the aligned parfactors. -/
theorem sumsOut_product {pairs : List (Component K × Parfactor K)} {p r : Parfactor K}
    {ps : List (Parfactor K)} (htakes : ∀ x ∈ pairs, TakesPart s x.1 x.2)
    (hover : ∀ x ∈ pairs, x.1.IsOver sig) (hs : s.prv.base.IsOver sig)
    (hpairs : pairs.map Prod.snd = p :: ps) (hr : Multiplies p ps r)
    (hnot : s.prv ∉ r.prvs.erase s.prv)
    (he : SetElimination.Sums ⟨s, pairs.map Prod.fst, pairs.map Prod.snd⟩) :
    r.SumsOut s.prv ∧ r.solutions = s.groundings := by
  obtain ⟨x, hx, hxp⟩ := List.mem_map.mp (hpairs ▸ List.mem_cons_self : p ∈ pairs.map Prod.snd)
  obtain ⟨q, k, -, haligned, -⟩ := (htakes x hx).involved
  rw [hxp] at haligned
  have hlog : ∀ y, y ∈ r.logVars ↔ y ∈ s.prv.freeVars := fun y =>
    (hr.alongside.logVars y).trans (haligned.logVars y)
  have hcs : r.constraints = s.constraints := hr.alongside.constraints.trans haligned.constraints
  have hrsol : r.solutions = s.groundings := hr.alongside.solutions_eq.trans haligned.solutions_eq
  have heven : s.constraints.Even r.logVars (r.staying s.prv) :=
    he.even.congr (fun y => (hlog y).symm) fun _ =>
      mem_staying_product hpairs (fun _ => hr.mem_prvs) hnot
  refine ⟨⟨fun y hy => (hlog y).mp hy, fun γ hγ δ hδ hne => ?_, fun t ht hne γ hγ δ hδ => ?_,
    hcs.symm ▸ heven, hcs.symm ▸ haligned.ordered, hrsol.symm ▸ he.few⟩, hrsol⟩
  · exact he.disjoint γ (hrsol ▸ hγ) δ (hrsol ▸ hδ) hne
  · -- the others are random variables of aligned parfactors with the same groundings
    obtain ⟨q, hq, htq⟩ := hr.mem_prvs.mp ht
    obtain ⟨x, hx, rfl⟩ := List.mem_map.mp (hpairs ▸ hq : q ∈ pairs.map Prod.snd)
    rw [hrsol] at hγ hδ
    have hdisjoint := (htakes x hx).disjoint_others (hover x hx) hs htq hne
      ((htakes x hx).solutions_eq.symm ▸ hγ)
    exact hdisjoint.mono_right (subset_biUnion_of_mem _ hδ)

/-! ## the marginal -/

/-- normal forms of the parfactors that restate a component -/
theorem restates_normalForms {l : List (Parfactor K)} {cs : List (Component K)}
    (h : Restates c (l.map .standard)) (hcs : normalForms l = .ok cs) : Restates c cs := by
  obtain ⟨normal, hnormal, hcs⟩ := bind_ok hcs
  cases hcs
  have hforms : List.Forall₂ (fun (c : Component K) r => c.normalize = .ok r) (l.map .standard)
      (normal.map (·.map .standard)) := by
    rw [List.forall₂_map_left_iff, List.forall₂_map_right_iff]
    exact (collect_ok hnormal).imp fun p r hr => by rw [Component.normalize, hr]; rfl
  have hrestates := Component.restates_normalized h hforms
  rwa [List.filterMap_map] at hrestates

/-- the aligned parfactors together mean what the components that take part mean together -/
theorem meaningOf_takesPart {pairs : List (Component K × Parfactor K)}
    (htakes : ∀ x ∈ pairs, TakesPart s x.1 x.2) {w : World} (hw : ∀ x ∈ pairs, w.Legal x.1.scope) :
    ((pairs.map Prod.snd).map (·.meaning w)).prod = meaningOf (pairs.map Prod.fst) w := by
  rw [meaningOf, List.map_map, List.map_map]
  refine congrArg List.prod (List.map_congr_left fun x hx => ?_)
  exact (htakes x hx).meaning_eq (hw x hx)

/-- the product depends on nothing else than what takes part -/
theorem scope_product {pairs : List (Component K × Parfactor K)} {p r : Parfactor K}
    {ps : List (Parfactor K)} (htakes : ∀ x ∈ pairs, TakesPart s x.1 x.2)
    (hmem : ∀ x ∈ pairs, x.1 ∈ m.distribution.toList) (hpairs : pairs.map Prod.snd = p :: ps)
    (hr : Multiplies p ps r) : r.scope ⊆ m.scope := by
  intro v hv
  obtain ⟨q, hq, hv⟩ := hr.exists_mem_scope hv
  obtain ⟨x, hx, rfl⟩ := List.mem_map.mp (hpairs ▸ hq : q ∈ pairs.map Prod.snd)
  exact Marginal.scope_subset (hmem x hx) ((htakes x hx).scope_subset hv)

/-- the product and what is left beside it mean what the marginal means -/
theorem meaning_product {pairs : List (Component K × Parfactor K)} {p r : Parfactor K}
    {ps : List (Parfactor K)} {d : Distribution K} (htakes : ∀ x ∈ pairs, TakesPart s x.1 x.2)
    (hmem : ∀ x ∈ pairs, x.1 ∈ m.distribution.toList) (hpairs : pairs.map Prod.snd = p :: ps)
    (hr : Multiplies p ps r) (hd : removeAll m.distribution (pairs.map Prod.fst) = .ok d)
    {w : World} (hw : w.Legal m.scope) : meaningOf d.toList w * r.meaning w = m.meaning w := by
  have hfactors : r.meaning w = ((pairs.map Prod.snd).map (·.meaning w)).prod := by
    rw [hr.meaning w (hw.mono (scope_product htakes hmem hpairs hr)), hpairs]
    rfl
  rw [hfactors, meaningOf_takesPart htakes fun x hx => hw.mono (Marginal.scope_subset (hmem x hx)),
    (removeAll_ok hd).2 w]
  rfl

/-- what takes no part in an elimination has nothing of the set -/
theorem scope_of_untouched (hsound : ∀ c ∈ m.distribution.toList, c.Sound) (hover : m.IsOver sig)
    (hs : s.prv.base.IsOver sig) {pairs : List (Component K × Parfactor K)}
    (halign : alignAll? s (.ofSet s) m.distribution.toList = some pairs)
    (htakes : ∀ x ∈ pairs, TakesPart s x.1 x.2) (hne : pairs.map Prod.snd ≠ [])
    (hc : c ∈ m.distribution.toList) (hnot : c ∉ pairs.map Prod.fst) :
    c.scope ⊆ m.scope \ s.owned := by
  have hhits := ((alignAll?_ok halign).1 c hc).resolve_left hnot
  obtain ⟨x, hx⟩ := List.exists_mem_of_ne_nil pairs fun hnil => hne (List.map_eq_nil_iff.mpr hnil)
  obtain ⟨_, _, -, haligned, -⟩ := (htakes x hx).involved
  have hdisjoint := disjoint_of_untouched (hsound c hc) (hover.1 c hc) hs hhits
    fun v hv => haligned.atom_mem_instances hv
  exact fun v hv => mem_sdiff.mpr ⟨Marginal.scope_subset hc hv, disjoint_left.mp hdisjoint hv⟩

/-- **A product beside the rest**: where it means, together with components that have nothing of what
vanishes, what the marginal means, summing it out sums out the marginal. -/
theorem sumsTo_of_product {t : Prv} {product summed : Parfactor K} {d : Distribution K}
    {cs : List (Component K)} (hproduct : product.Sound) (hsums : product.SumsOut t)
    (hscope : product.scope ⊆ m.scope)
    (hrest : ∀ c ∈ d.toList, c.Sound ∧ c.scope ⊆ m.scope \ product.vanishing t)
    (hmeaning : ∀ u : World, u.Legal m.scope →
      meaningOf d.toList u * product.meaning u = m.meaning u)
    (hsummed : product.sumOut t = .ok summed) (hcs : normalForms [summed] = .ok cs) :
    m.SumsTo (product.vanishing t) (m.withDistribution (d.addAll cs)) := by
  have hsummedScope : summed.scope ⊆ m.scope \ product.vanishing t :=
    (Parfactor.scope_sumOut hproduct hsums hsummed).trans (sdiff_subset_sdiff hscope subset_rfl)
  have hsummedSound : (Component.standard summed).Sound :=
    Parfactor.sound_sumOut hproduct hsums hsummed
  have hnormal := restates_normalForms (.refl hsummedSound) hcs
  have hresult : ∀ c ∈ (d.addAll cs).toList, c.Sound ∧ c.scope ⊆ m.scope \ product.vanishing t :=
    Distribution.forall_mem_addAll (fun c hc => ⟨hc.1.squared, c.scope_squared ▸ hc.2⟩)
      (fun c hc => ⟨hnormal.sound c hc, (hnormal.scope c hc).trans hsummedScope⟩) d hrest
  refine ⟨rfl, fun c hc => (hresult c hc).1, ?_, fun v hv => ?_, fun w hw => ?_⟩
  · obtain ⟨i, hi, -, -, -⟩ := Parfactor.sumOut_ok hsummed
    refine Subset.trans (biUnion_subset.mpr fun γ hγ => ?_) hscope
    exact (Parfactor.owned_subset_owned (List.mem_of_getElem? hi) γ).trans
      (Parfactor.owned_subset_scope hγ)
  · obtain ⟨c, hc, hv⟩ := mem_scopeOf.mp hv
    exact (hresult c hc).2 hv
  -- the rest means the same for all assignments of what vanishes
  have hassigned : ∀ u ∈ w.assignments (product.vanishing t),
      meaningOf d.toList w * product.meaning u = m.meaning u := by
    intro u hu
    have hsame : meaningOf d.toList w = meaningOf d.toList u :=
      meaningOf_congr (fun c hc => (hrest c hc).1) fun c hc v hv =>
        ((World.mem_assignments.mp hu).2 v (mem_sdiff.mp ((hrest c hc).2 hv)).2).symm
    rw [hsame]
    exact hmeaning u (World.legal_of_mem_assignments hu hw)
  calc meaningOf (d.addAll cs).toList w
      = meaningOf d.toList w * meaningOf cs w := Distribution.meaningOf_addAll cs d w
    _ = meaningOf d.toList w * summed.meaning w := by
        rw [hnormal.meaning w (hw.mono hsummedScope)]
        rfl
    _ = meaningOf d.toList w * ∑ u ∈ w.assignments (product.vanishing t), product.meaning u := by
        rw [Parfactor.meaning_sumOut hproduct hsums hsummed (hw.mono hsummedScope)]
    _ = ∑ u ∈ w.assignments (product.vanishing t), m.meaning u := by
        rw [mul_sum]
        exact sum_congr rfl hassigned

/-- **The elimination of a set is summation**: the result is the marginal with the set summed out. -/
theorem sumsTo_runSumOut (hsound : ∀ c ∈ m.distribution.toList, c.Sound) (hover : m.IsOver sig)
    (hs : s.prv.Valid) (hexact : ∀ γ ∈ s.groundings, s.prv.Exact γ)
    (hsover : s.prv.base.IsOver sig) (h : sumOut? m s = some e) (he : e.Sums)
    (hrun : runSumOut m e = .ok m') : m.SumsTo s.owned m' := by
  obtain ⟨pairs, halign, -, rfl⟩ := sumOut?_ok h
  obtain ⟨p, ps, product, summed, d, cs, hpairs, hproduct, hsummed, hd, hcs, rfl⟩ :=
    runSumOut_ok hrun
  have hpairs : pairs.map Prod.snd = p :: ps := hpairs
  have htakes := takesPart_of_alignAll? hsound hs hexact halign he.free
  have hmem : ∀ x ∈ pairs, x.1 ∈ m.distribution.toList := fun x hx => by
    obtain ⟨_, _, -, hmem, -⟩ := (alignAll?_ok halign).2 x hx
    exact hmem
  -- the product, which is about the whole set
  have hsounds : ∀ q ∈ p :: ps, q.Sound := by
    intro q hq
    obtain ⟨x, hx, rfl⟩ := List.mem_map.mp (hpairs ▸ hq : q ∈ pairs.map Prod.snd)
    exact (htakes x hx).sound
  have hproducts := multiplies_all (hsounds p List.mem_cons_self)
    (fun q hq => hsounds q (List.mem_cons_of_mem _ hq)) hproduct
  obtain ⟨-, -, -, hnot, -⟩ := Parfactor.sumOut_ok hsummed
  obtain ⟨hsums, hsolutions⟩ := sumsOut_product htakes (fun x hx => hover.1 x.1 (hmem x hx)) hsover
    hpairs hproducts hnot he
  have hvanishing : product.vanishing s.prv = s.owned := by
    rw [Parfactor.vanishing, hsolutions]
    rfl
  -- what is left does not depend on the set
  have hrest : ∀ c ∈ d.toList, c.Sound ∧ c.scope ⊆ m.scope \ s.owned := fun c hc => by
    obtain ⟨hc, hnot⟩ := ((removeAll_ok hd).1 c).mp hc
    exact ⟨hsound c hc, scope_of_untouched hsound hover hsover halign htakes
      (hpairs ▸ List.cons_ne_nil p ps) hc hnot⟩
  rw [← hvanishing] at hrest ⊢
  exact sumsTo_of_product hproducts.sound hsums (scope_product htakes hmem hpairs hproducts) hrest
    (fun u hu => meaning_product htakes hmem hpairs hproducts hd hu) hsummed hcs

/-- **The elimination of a set is summation**: if the builders have accepted the parfactors and the
formula of the set, and all formulas are exact, the result keeps the same sets, and means the sum of
the meanings over all assignments of the set. -/
theorem sumOut_meaning (hm : m.Accepted) (hexact : m.Exact) (hover : m.IsOver sig)
    (hs : s.Accepted) (hsexact : s.Exact) (hsover : s.prv.base.IsOver sig)
    (h : sumOut? m s = some e) (he : e.Sums) (hrun : runSumOut m e = .ok m') :
    m'.kept = m.kept ∧ ∀ w : World, w.Legal (m.scope \ s.owned) →
      m'.meaning w = ∑ u ∈ w.assignments s.owned, m.meaning u := by
  have hsums := sumsTo_runSumOut (hm.sound hexact) hover hs.valid hsexact hsover h he hrun
  exact ⟨hsums.kept, hsums.meaning⟩

end Operation

/-! ## a counted contagion -/

open scoped ExactScalar

namespace Epidemic

def other : LogVar := ⟨"Y", people⟩

def infects (s t : Term) : Atom := ⟨"infects", [s, t], .boolean⟩

/-- how many others somebody can be infected by -/
def sources : CountingFormula :=
  ⟨person, infects (.var person) (.var other),
    (∅ : ConstraintSet).insert (.ordered person (.var other))⟩

def sourceSet : PrvSet := ⟨.count sources, ∅⟩

/-- an epidemic depends on how many sources everybody has -/
def contagion : Marginal Nat :=
  .make [.standard ⟨∅, [.count sources, .atom epidemic], ⟨#[4, 1, 2, 2, 1, 3]⟩⟩]
    [⟨.atom epidemic, ∅⟩]

theorem valid_sources : sources.Valid :=
  ⟨by decide, by decide, by decide⟩

theorem exact_sources {γ : Valuation} (h : γ other ∈ people) : sources.Exact γ := by
  have hvars : sources.excludedVars = [other] := by decide
  have hindividuals : sources.individuals = people := by decide
  rw [CountingFormula.exact_iff valid_sources, hvars, hindividuals]
  refine ⟨List.nodup_singleton _, fun x hx => ?_, by decide⟩
  rw [List.mem_singleton.mp hx]
  exact h

theorem accepted_contagion : contagion.Accepted := by
  refine Marginal.accepted_make fun c hc => ?_
  obtain rfl := List.mem_singleton.mp hc
  refine ⟨rfl, fun f hf => ?_, by decide⟩
  simp only [List.mem_cons, List.not_mem_nil, or_false, Prv.count.injEq, reduceCtorEq] at hf
  subst hf
  rfl

theorem other_mem {cs : ConstraintSet} {vars : List LogVar} {γ : Valuation}
    (hγ : γ ∈ cs.solutions vars) (h : other ∈ vars) : γ other ∈ people :=
  (ConstraintSet.mem_solutions.mp hγ).1.1 other h

theorem exact_contagion : contagion.Exact := by
  refine Marginal.exact_make fun c hc => ?_
  obtain rfl := List.mem_singleton.mp hc
  intro γ hγ f hf
  simp only [List.mem_cons, List.not_mem_nil, or_false, Prv.count.injEq, reduceCtorEq] at hf
  exact hf ▸ exact_sources (other_mem hγ (by decide))

theorem isOver_contagion : contagion.IsOver fun _ _ => people := by
  have hcomponents : ∀ c ∈ contagion.distribution.toList, ∀ q ∈ c.prvs,
      ∀ x ∈ q.base.variables, x.population = people := by decide +kernel
  have hkept : ∀ k ∈ contagion.kept, ∀ x ∈ k.prv.base.variables, x.population = people := by
    decide
  exact ⟨fun c hc q hq => Atom.isOver_of_forall (hcomponents c hc q hq),
    fun k hk => Atom.isOver_of_forall (hkept k hk)⟩

theorem mem_prvs_contagion {p : Parfactor Nat}
    (h : Component.standard p ∈ contagion.distribution.toList) :
    p.prvs = [.count sources, .atom epidemic] := by
  have hprvs : ∀ c ∈ contagion.distribution.toList, c.prvs = [.count sources, .atom epidemic] := by
    decide +kernel
  exact hprvs _ h

/-- the sources of everybody can be summed out of the contagion -/
theorem sums_contagion {e : SetElimination Nat}
    (h : Operation.sumOut? contagion sourceSet = some e) : e.Sums := by
  obtain ⟨pairs, hpairs, -, rfl⟩ := Operation.sumOut?_ok h
  have hstaying : ∀ e', Operation.sumOut? contagion sourceSet = some e' → e'.staying = [] := by
    have hall : (Operation.sumOut? contagion sourceSet).all (·.staying.isEmpty) = true := by
      decide +kernel
    intro e' he'
    rw [he'] at hall
    exact List.isEmpty_iff.mp hall
  have hfree : sourceSet.prv.freeVars = [other] := by decide
  have hcard : sourceSet.groundings.card = 3 := by
    rw [PrvSet.groundings, ← ConstraintSet.length_completions_eq (by decide)
      (by decide)]
    decide
  have hbase : ∀ x ∈ sourceSet.prv.freeVars, x ∈ sourceSet.prv.base.variables := by decide
  refine ⟨fun γ hγ δ hδ hne => PrvSet.disjoint_of_subset hbase valid_sources hγ hδ hne,
    ?_, ?_, fun p hp f hf => ?_⟩
  · rw [hstaying _ h]
    exact ConstraintSet.even_nil (card_pos.mp (by rw [← PrvSet.groundings, hcard]; decide))
  · show sourceSet.groundings.card ≤ _
    rw [hcard]
    decide
  · obtain ⟨x, hx, hxp⟩ := List.mem_map.mp hp
    obtain ⟨_, _, -, hmem, -⟩ := (Operation.alignAll?_ok hpairs).2 x hx
    rw [hxp] at hmem
    rw [mem_prvs_contagion hmem] at hf
    simp only [List.mem_cons, List.not_mem_nil, or_false, Prv.count.injEq, reduceCtorEq] at hf
    show f.bound ∉ sourceSet.prv.freeVars
    rw [hf, hfree]
    decide

end Epidemic

theorem Epidemic.sumOut_meaning_contagion : ∃ e m', Operation.sumOut? contagion sourceSet = some e
    ∧ Operation.runSumOut contagion e = .ok m' ∧ m'.kept = contagion.kept
    ∧ ∀ w : World, w.Legal (contagion.scope \ sourceSet.owned) →
      m'.meaning w = ∑ u ∈ w.assignments sourceSet.owned, contagion.meaning u := by
  have hs : sourceSet.Accepted := fun f hf => by
    cases hf
    rfl
  have hexact : sourceSet.Exact := fun γ hγ =>
    exact_sources (other_mem hγ (by decide))
  have hran : (Operation.sumOut? contagion sourceSet).any
      (fun e => (Operation.runSumOut contagion e).isOk) = true := by decide +kernel
  obtain ⟨e, he, hrun⟩ := (Option.any_eq_true _ _).mp hran
  cases h : Operation.runSumOut contagion e with
  | error err =>
    rw [h] at hrun
    cases hrun
  | ok m' =>
    exact ⟨e, m', he, h, Operation.sumOut_meaning accepted_contagion exact_contagion
      isOver_contagion hs hexact (Atom.isOver_of_forall (by decide)) he (sums_contagion he) h⟩

end LiftedElimination
