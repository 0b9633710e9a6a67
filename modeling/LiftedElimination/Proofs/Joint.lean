import LiftedElimination.Proofs.Alignment
import LiftedElimination.Proofs.Convert
import LiftedElimination.Proofs.Refinement

/-!
# The product of a distribution

The product takes one part after the other: the parfactors, and those that state the aggregations.
A part without random variables is a number for each of its groundings.  Any other part is renamed to
fit what has been multiplied before.  The number is put into every entry in the end, so it counts
once for every grounding of the product.

* `Suits`               as many logical variables, and none of them bound;
* `injOn_of_length`     a renaming onto as many variables keeps them apart;
* `align?_ok`           a part renamed to fit means what it meant;
* `meaning_scaled`      a number in every entry counts once for every grounding;
* `Partial.Takes`       what some components have done to a partial product;
* `takes_toParfactors`, `takes_multiplyComponents`   one component, and one after the other;
* `meaning_product`, `nonempty_product`   from sound components on;
* `product_meaning`     what the product means.
-/

namespace LiftedElimination

open Finset

variable {K : Type}

/-! ## parts renamed to fit -/

namespace Parfactor

variable {p p' q r : Parfactor K} {s : Substitution}

/-- `p` has as many logical variables as `q`, and its formulas bind none of those of `q` -/
structure Suits (p q : Parfactor K) : Prop where
  length : p.logVars.length = q.logVars.length
  free : ∀ f, Prv.count f ∈ p.prvs → f.bound ∉ q.logVars

theorem Alongside.length_eq (h : Alongside p q) : p.logVars.length = q.logVars.length :=
  ((List.perm_ext_iff_of_nodup p.nodup_logVars q.nodup_logVars).mpr h.logVars).length_eq

theorem Suits.alongside (h : p.Suits q) (hr : Alongside r q) : p.Suits r :=
  ⟨h.length.trans hr.length_eq.symm, fun f hf hx => h.free f hf ((hr.logVars _).mp hx)⟩

/-- a renaming of an occurrence to another one captures nothing if no variable of that one is bound -/
theorem admits_of_renames {target : Parfactor K} {a b : Prv} {o : Extent.Overlap}
    (hp : p.Proper) (hfree : ∀ f, Prv.count f ∈ p.prvs → f.bound ∉ target.logVars)
    (ha : a ∈ target.prvs) (hs : s.IsRenaming)
    (h : Extent.Renames (.of a target.constraints) (.of b p.constraints) o s) : p.Admits s := by
  refine ⟨fun x _ => .inl (hs x), fun f hf x hx hxf => ?_⟩
  by_cases hout : x ∉ (Extent.of b p.constraints).atom.variables
      ∨ (Extent.of b p.constraints).counted = some x
  · cases Term.var.inj ((h.outside x hout).symm.trans hxf)
    exact hp.bound f hf hx
  · obtain ⟨hmem, hne⟩ := not_or.mp hout
    obtain ⟨z, hz⟩ := h.identical.exists_partner_right (not_not.mp hmem)
    cases Term.var.inj ((h.free x z hz hne).symm.trans hxf)
    have hbase := hz.right_mem
    rw [Extent.of_atom] at hbase
    exact hfree f hf (mem_logVars.mpr (.inl ⟨a, ha,
      Prv.mem_freeVars_of_ne hbase fun hc => hne ((h.counted x _ hz).mpr hc)⟩))

theorem admits_of_renaming? {target : Parfactor K} {a b : Prv} (hp : p.Proper)
    (hfree : ∀ f, Prv.count f ∈ p.prvs → f.bound ∉ target.logVars) (ha : a ∈ target.prvs)
    (hb : b ∈ p.prvs)
    (h : (Extent.of a target.constraints).renaming? (.of b p.constraints) = some s) :
    s.IsRenaming ∧ p.Admits s := by
  have hclosed := fun (c : Prv) (t : Parfactor K) => Extent.isClosed_of c t.constraints
  have hrename := Extent.isRenaming_of_renaming? (hclosed a target) (hclosed b p) h
  obtain ⟨o, ho⟩ := Extent.renames_of_renaming? (hclosed a target) (hclosed b p)
    (fun z => (hp.valid b hb).counted_mem) h
  exact ⟨hrename, admits_of_renames hp hfree ha hrename ho⟩

/-- **A renaming onto as many variables** keeps them apart. -/
theorem injOn_of_length (hvalid : ∀ a ∈ p.prvs, a.Valid) (havoids : ∀ a ∈ p.prvs, a.Avoids s)
    (h : p.apply s = some q) (hlen : p.logVars.length ≤ q.logVars.length) : s.InjOn p.logVars := by
  have hnodup : (q.logVars.map Term.var).Nodup := q.nodup_logVars.map fun _ _ => Term.var.inj
  have hsub : q.logVars.map Term.var ⊆ p.logVars.map fun x => s.apply (.var x) := by
    intro t ht
    obtain ⟨z, hz, rfl⟩ := List.mem_map.mp ht
    obtain ⟨x, hx, hxz⟩ := (mem_logVars_apply_of_avoids hvalid havoids h).mp hz
    exact List.mem_map.mpr ⟨x, hx, hxz⟩
  have hperm := (hnodup.subperm hsub).perm_of_length_le (by simpa using hlen)
  exact fun x hx y hy => List.inj_on_of_nodup_map (hperm.nodup hnodup) hx hy

/-- a part that fits as it is, or is renamed by a match of two occurrences -/
theorem align?_cases (h : q.align? p = some r) : q.isMultipliable r = true ∧ (r = p
    ∨ ∃ a ∈ q.prvs, ∃ b ∈ p.prvs, ∃ s,
      (Extent.of a q.constraints).renaming? (.of b p.constraints) = some s
        ∧ p.apply s = some r) := by
  unfold align? at h
  split at h
  · cases h
    exact ⟨‹_›, .inl rfl⟩
  · obtain ⟨b, hb, h⟩ := List.exists_of_findSome?_eq_some h
    obtain ⟨a, ha, h⟩ := List.exists_of_findSome?_eq_some h
    split at h
    · cases h
    · rename_i s hs
      obtain ⟨happly, hfit⟩ := Option.filter_eq_some_iff.mp h
      exact ⟨hfit, .inr ⟨a, ha, b, hb, s, hs, happly⟩⟩

/-- **A part renamed to fit** is as sound as it was, and means the same. -/
theorem align?_ok [ExactScalar K] (hp : p.Sound) (hsuits : p.Suits q)
    (h : q.align? p = some p') : p'.Sound ∧ p'.scope ⊆ p.scope
      ∧ ∀ w : World, p'.meaning w = p.meaning w := by
  obtain ⟨hfit, rfl | ⟨a, ha, b, hb, s, hs, happly⟩⟩ := align?_cases h
  · exact ⟨hp, Subset.rfl, fun _ => rfl⟩
  · obtain ⟨hrename, hadmits⟩ := admits_of_renaming? hp.proper hsuits.free ha hb hs
    have hlen : p.logVars.length ≤ p'.logVars.length :=
      (hsuits.length.trans (alongside_of_isMultipliable hfit).length_eq).le
    exact ⟨hp.apply hadmits happly, scope_apply hp.proper hadmits happly, fun w =>
      meaning_renamed hp hadmits hrename
        (injOn_of_length hp.valid (fun _ => hadmits.avoids) happly hlen) happly w⟩

/-! ## numbers -/

section
variable [ExactScalar K]

/-- **A number in every entry** counts once for every grounding. -/
theorem meaning_scaled {x : K} (h : make p.constraints p.prvs (some (p.factor.map (· * x))) = .ok r)
    (w : World) : r.solutions = p.solutions ∧ r.meaning w = p.meaning w * x ^ p.solutions.card := by
  obtain ⟨hmade, hfactor⟩ := make_ok h
  obtain ⟨cs, qs, t⟩ := r
  obtain rfl : cs = p.constraints := hmade.constraints_eq
  obtain rfl : qs = p.prvs := hmade.prvs_eq
  obtain rfl : t = p.factor.map (· * x) := hfactor _ rfl
  have hvalue : ∀ γ, (⟨p.constraints, p.prvs, p.factor.map (· * x)⟩ : Parfactor K).value γ w
      = p.value γ w * x := fun γ =>
    Factor.lookup_map p.factor (· * x) (zero_mul x) p.sizes (p.digits γ w)
  refine ⟨rfl, ?_⟩
  rw [meaning, prod_congr rfl fun γ _ => hvalue γ, prod_mul_distrib, prod_const]
  rfl

/-- a parfactor without random variables means a number for every grounding -/
theorem meaning_constant (h : p.isConstant = true) (hsize : p.factor.size = 1) (w : World) :
    p.meaning w = (p.factor.get? 0).getD 1 ^ p.solutions.card := by
  -- every grounding selects the one entry of the table
  have hprvs : p.prvs = [] := List.isEmpty_iff.mp h
  have hvalue : ∀ γ, p.value γ w = (p.factor.get? 0).getD 1 := by
    intro γ
    have hlt : 0 < p.factor.values.size := Nat.one_pos.trans_eq hsize.symm
    rw [value, digits, sizes, hprvs]
    show (p.factor.values[0]?).getD 0 = (p.factor.values[0]?).getD 1
    rw [Array.getElem?_eq_getElem hlt]
    rfl
  rw [meaning, prod_congr rfl fun γ _ => hvalue γ, prod_const]

end

end Parfactor

/-! ## what has been multiplied -/

/-- a parfactor without random variables -/
def Component.isConstant : Component K → Bool
  | .standard p => p.isConstant
  | .aggregation _ => false

/-- the parfactors that an aggregation is converted to have random variables -/
theorem Aggregation.isConstant_of_mem_toParfactors [Scalar K] {a : Aggregation K}
    {ps : List (Parfactor K)} (h : a.toParfactors = .ok ps) {p : Parfactor K} (hp : p ∈ ps) :
    p.isConstant = false := by
  obtain ⟨weighed, f, g, rfl, hweighed, -, hg⟩ := toParfactors_ok h
  have hmade : ∀ {cs b qs t} {q : Parfactor K}, Parfactor.make cs (b :: qs) t = .ok q →
      q.isConstant = false := by
    intro cs b qs t q hq
    rw [Parfactor.isConstant, (Parfactor.make_ok hq).1.prvs_eq]
    rfl
  rcases List.mem_append.mp hp with hp | hp
  · rcases hweighed with ⟨-, rfl⟩ | ⟨q, hq, rfl⟩
    · cases hp
    · exact List.mem_singleton.mp hp ▸ hmade hq
  · exact List.mem_singleton.mp hp ▸ hmade hg

namespace Distribution

open Parfactor

/-- one of the parfactors that are multiplied -/
def IsPart [Scalar K] (d : Distribution K) (p : Parfactor K) : Prop :=
  ∃ c ∈ d.toList, ∃ ps, c.toParfactors = .ok ps ∧ p ∈ ps

/-- What the product takes for granted: all parts with random variables have the same number of
logical variables, which no formula of them binds; the groundings of the others are within the
range of costs, their inequalities written in the canonical way; and aggregations have
groundings. -/
structure Uniform [Scalar K] (d : Distribution K) : Prop where
  suits : ∀ p q, d.IsPart p → d.IsPart q → p.isConstant = false → q.isConstant = false → p.Suits q
  ordered : ∀ p, .standard p ∈ d.toList → p.isConstant = true → p.constraints.IsOrdered
  counted : ∀ p, .standard p ∈ d.toList → p.isConstant = true → p.solutions.card ≤ Cost.limit
  aggregated : ∀ a, .aggregation a ∈ d.toList → a.solutions.Nonempty

variable [ExactScalar K] {d : Distribution K} {acc acc' acc'' : Partial K} {p : Parfactor K}
  {c : Component K} {cs : List (Component K)}

theorem meaningOf_filter_singleton (P : Component K → Bool) (c : Component K) (w : World) :
    meaningOf ([c].filter P) w = if P c then c.meaning w else 1 := by
  rw [List.filter_cons]
  cases P c
  · rfl
  · exact mul_one _

/-- the numbers and everything else -/
theorem meaningOf_filter_mul (P : Component K → Bool) (cs : List (Component K)) (w : World) :
    meaningOf (cs.filter (!P ·)) w * meaningOf (cs.filter P) w = meaningOf cs w := by
  induction cs with
  | nil => exact mul_one _
  | cons c cs ih =>
    rw [← List.singleton_append, List.filter_append, List.filter_append, meaningOf_append,
      meaningOf_append, meaningOf_append, ← ih, meaningOf_filter_singleton,
      meaningOf_filter_singleton, meaningOf_cons, meaningOf_nil, mul_mul_mul_comm]
    congr 1
    cases P c
    · rfl
    · exact mul_comm _ _

/-- what the parfactor of a partial product means -/
def Partial.meaning (acc : Partial K) (w : World) : K :=
  match acc.parfactor with
  | none => 1
  | some p => p.meaning w

/-- a partial product about random variables of the distribution, over the groundings of a part -/
def Partial.Fits (d : Distribution K) (acc : Partial K) : Prop :=
  ∀ q, acc.parfactor = some q → q.Sound ∧ q.scope ⊆ scopeOf d.toList
    ∧ ∃ r, d.IsPart r ∧ r.isConstant = false ∧ Alongside q r

/-- **What the components in `cs` have done to a partial product**: the numbers among them are in
the scalar, and everything else is in the parfactor. -/
structure Partial.Takes (d : Distribution K) (cs : List (Component K)) (acc acc' : Partial K) :
    Prop where
  fits : acc'.Fits d
  scalar : ∀ w, acc'.scalar = acc.scalar * meaningOf (cs.filter (·.isConstant)) w
  meaning : ∀ w : World, w.Legal (scopeOf d.toList) →
    acc'.meaning w = acc.meaning w * meaningOf (cs.filter (!·.isConstant)) w

theorem Partial.Takes.refl (h : acc.Fits d) : Takes d [] acc acc :=
  ⟨h, fun _ => (mul_one _).symm, fun _ _ => (mul_one _).symm⟩

theorem Partial.Takes.append {bs : List (Component K)} (h : Takes d bs acc acc')
    (h' : Takes d cs acc' acc'') : Takes d (bs ++ cs) acc acc'' := by
  refine ⟨h'.fits, fun w => ?_, fun w hw => ?_⟩
  · rw [List.filter_append, meaningOf_append, ← mul_assoc, ← h.scalar, h'.scalar w]
  · rw [List.filter_append, meaningOf_append, ← mul_assoc, ← h.meaning w hw, h'.meaning w hw]

/-- one more part with random variables -/
theorem takes_multiply (hd : d.Uniform) (hacc : acc.Fits d) (hp : p.Sound)
    (hscope : p.scope ⊆ scopeOf d.toList) (hpart : d.IsPart p) (hrandom : p.isConstant = false)
    (h : acc.multiply p = .ok acc') : Partial.Takes d [.standard p] acc acc' := by
  suffices hsuffices : acc'.Fits d ∧ acc'.scalar = acc.scalar
      ∧ ∀ w : World, w.Legal (scopeOf d.toList) → acc'.meaning w = acc.meaning w * p.meaning w by
    obtain ⟨hfits, hscalar, hmeaning⟩ := hsuffices
    have hconst : (Component.standard p).isConstant = false := hrandom
    refine ⟨hfits, fun w => ?_, fun w hw => ?_⟩
    · rw [meaningOf_filter_singleton, hconst, hscalar]
      exact (mul_one _).symm
    · rw [meaningOf_filter_singleton, hconst, hmeaning w hw]
      rfl
  obtain ⟨x, o⟩ := acc
  rw [Partial.multiply, hrandom, if_neg Bool.false_ne_true] at h
  cases o with
  | none =>
    cases h
    refine ⟨fun q hq => ?_, rfl, fun w _ => (one_mul _).symm⟩
    cases hq
    exact ⟨hp, hscope, p, hpart, hrandom, .refl p⟩
  | some q =>
    obtain ⟨hq, hqscope, first, hfirst, hfirstrandom, hfirstq⟩ := hacc q rfl
    obtain ⟨r, hr, rfl⟩ := map_ok h
    have haligned : ((q.align? p).getD p).Sound ∧ ((q.align? p).getD p).scope ⊆ p.scope
        ∧ ∀ w : World, ((q.align? p).getD p).meaning w = p.meaning w := by
      cases halign : q.align? p with
      | none => exact ⟨hp, Subset.rfl, fun _ => rfl⟩
      | some p' =>
        have hsuits := hd.suits p first hpart hfirst hrandom hfirstrandom
        exact align?_ok hp (hsuits.alongside hfirstq) halign
    obtain ⟨hsound, hsub, hsame⟩ := haligned
    have hrscope : r.scope ⊆ scopeOf d.toList :=
      scope_multiply hr ▸ union_subset hqscope (hsub.trans hscope)
    refine ⟨fun r' hr' => ?_, rfl, fun w hw => ?_⟩
    · cases hr'
      exact ⟨sound_multiply hq hsound hr, hrscope, first, hfirst, hfirstrandom,
        (alongside_multiply hr).trans hfirstq⟩
    · exact (meaning_multiply hq hsound hr (hw.mono hrscope)).trans (by rw [hsame w]; rfl)

theorem takes_multiplyAll (hd : d.Uniform) {ps : List (Parfactor K)} (hacc : acc.Fits d)
    (hps : ∀ p ∈ ps, p.Sound ∧ p.scope ⊆ scopeOf d.toList ∧ d.IsPart p ∧ p.isConstant = false)
    (h : acc.multiplyAll ps = .ok acc') : Partial.Takes d (ps.map .standard) acc acc' := by
  induction ps generalizing acc with
  | nil =>
    cases h
    exact .refl hacc
  | cons p ps ih =>
    obtain ⟨hp, hscope, hpart, hrandom⟩ := hps p List.mem_cons_self
    unfold Partial.multiplyAll at h
    split at h
    · cases h
    · rename_i acc₁ h₁
      have htakes := takes_multiply hd hacc hp hscope hpart hrandom h₁
      exact htakes.append (ih htakes.fits (fun q hq => hps q (List.mem_cons_of_mem _ hq)) h)

/-- a number counts once for every one of its groundings -/
theorem takes_constant (hd : d.Uniform) (hacc : acc.Fits d) (hp : p.Sound)
    (hsize : p.factor.size = 1) (hmem : .standard p ∈ d.toList) (hconst : p.isConstant = true)
    (h : acc.multiply p = .ok acc') : Partial.Takes d [.standard p] acc acc' := by
  rw [Partial.multiply, if_pos hconst] at h
  cases h
  have hcount : p.groundingCount = .finite p.solutions.card :=
    ConstraintSet.countGroundings_eq (hd.ordered p hmem hconst) hp.satisfiable
      p.nodup_logVars (hd.counted p hmem hconst)
  have hpower : Scalar.powRatio ((p.factor.get? 0).getD 1) p.groundingCount .one
      = (p.factor.get? 0).getD 1 ^ p.solutions.card := by
    have hratio := ExactScalar.powRatio_eq ((p.factor.get? 0).getD 1) p.solutions.card 1 one_ne_zero
    rwa [Nat.mul_one, ← hcount] at hratio
  have hc : (Component.standard p).isConstant = true := hconst
  refine ⟨hacc, fun w => ?_, fun w _ => ?_⟩
  · rw [meaningOf_filter_singleton, hc, hpower, ← meaning_constant hconst hsize w]
    rfl
  · rw [meaningOf_filter_singleton, hc]
    exact (mul_one _).symm

/-- the parts of anything else have random variables, and state it -/
theorem restates_parts (hd : d.Uniform) (hmem : c ∈ d.toList) (hc : c.Sound)
    (hrandom : c.isConstant = false) {ps : List (Parfactor K)} (h : c.toParfactors = .ok ps) :
    Restates c (ps.map .standard) ∧ ∀ p ∈ ps, p.isConstant = false := by
  cases c with
  | standard p =>
    cases h
    exact ⟨.refl hc, fun q hq => List.mem_singleton.mp hq ▸ hrandom⟩
  | aggregation a =>
    exact ⟨a.restates_toParfactors hc (hd.aggregated a hmem) h, fun p hp =>
      Aggregation.isConstant_of_mem_toParfactors h hp⟩

/-- what stands for a component that is no number does the same to a partial product -/
theorem Partial.Takes.of_restates {l : List (Component K)} (h : Takes d l acc acc')
    (hmem : c ∈ d.toList) (hc : c.isConstant = false) (hl : ∀ b ∈ l, b.isConstant = false)
    (hrestates : Restates c l) : Takes d [c] acc acc' := by
  have hnone : l.filter (·.isConstant) = [] :=
    List.filter_eq_nil_iff.mpr fun b hb => by rw [hl b hb]; exact Bool.false_ne_true
  have hall : l.filter (!·.isConstant) = l :=
    List.filter_eq_self.mpr fun b hb => by rw [hl b hb]; rfl
  refine ⟨h.fits, fun w => ?_, fun w hw => ?_⟩
  · rw [h.scalar w, hnone, meaningOf_filter_singleton, hc]
    rfl
  · have hlegal := hw.mono fun v hv => mem_scopeOf.mpr ⟨c, hmem, hv⟩
    rw [h.meaning w hw, hall, meaningOf_filter_singleton, hc, hrestates.meaning w hlegal]
    rfl

/-- a parfactor without random variables has one entry -/
def SingleEntries (d : Distribution K) : Prop :=
  ∀ p, .standard p ∈ d.toList → p.isConstant = true → p.factor.size = 1

/-- one component: a number is kept beside the product, the parts of any other one are multiplied -/
theorem takes_toParfactors (hd : d.Uniform) (hsingle : d.SingleEntries) (hmem : c ∈ d.toList)
    (hc : c.Sound) (hacc : acc.Fits d) {ps : List (Parfactor K)} (hps : c.toParfactors = .ok ps)
    (h : acc.multiplyAll ps = .ok acc') : Partial.Takes d [c] acc acc' := by
  cases hconst : c.isConstant with
  | false =>
    obtain ⟨hrestates, hrandom⟩ := restates_parts hd hmem hc hconst hps
    refine (takes_multiplyAll hd hacc (fun p hp => ?_) h).of_restates hmem hconst (fun b hb => ?_)
      hrestates
    · have hp' : Component.standard p ∈ ps.map .standard := List.mem_map_of_mem hp
      exact ⟨hrestates.sound _ hp', fun v hv => mem_scopeOf.mpr ⟨c, hmem, hrestates.scope _ hp' hv⟩,
        ⟨c, hmem, ps, hps, hp⟩, hrandom p hp⟩
    · obtain ⟨p, hp, rfl⟩ := List.mem_map.mp hb
      exact hrandom p hp
  | true =>
    cases c with
    | aggregation a => cases hconst
    | standard p =>
      cases hps
      unfold Partial.multiplyAll at h
      split at h
      · cases h
      · rename_i acc₁ h₁
        cases h
        exact takes_constant hd hacc hc (hsingle p hmem hconst) hmem hconst h₁

/-- **The components one after the other** -/
theorem takes_multiplyComponents (hd : d.Uniform) (hsingle : d.SingleEntries)
    (hsound : ∀ c ∈ d.toList, c.Sound) (hcs : ∀ c ∈ cs, c ∈ d.toList) (hacc : acc.Fits d)
    (h : acc.multiplyComponents cs = .ok acc') : Partial.Takes d cs acc acc' := by
  induction cs generalizing acc with
  | nil =>
    cases h
    exact .refl hacc
  | cons c cs ih =>
    have hmem := hcs c List.mem_cons_self
    unfold Partial.multiplyComponents at h
    split at h
    · cases h
    · rename_i ps hps
      split at h
      · cases h
      · rename_i acc₁ h₁
        have hfirst := takes_toParfactors hd hsingle hmem (hsound c hmem) hacc hps h₁
        exact hfirst.append (ih (fun b hb => hcs b (List.mem_cons_of_mem _ hb)) hfirst.fits h)

/-- the numbers of a distribution -/
def constants (d : Distribution K) : List (Component K) := d.toList.filter (·.isConstant)

/-- the components about random variables -/
def randoms (d : Distribution K) : List (Component K) := d.toList.filter (!·.isConstant)

/-- the parfactor without random variables that means one -/
theorem meaning_unit (h : make ∅ [] (some ⟨#[1]⟩) = .ok p) (w : World) : p.meaning w = 1 := by
  obtain ⟨cs, qs, t⟩ := p
  obtain rfl : cs = ∅ := (make_ok h).1.constraints_eq
  obtain rfl : qs = [] := (make_ok h).1.prvs_eq
  obtain rfl : t = ⟨#[1]⟩ := (make_ok h).2 _ rfl
  exact prod_eq_one fun _ _ => rfl

/-- what the product is made of -/
theorem product_ok (h : d.product = .ok p) : ∃ acc q,
    (Partial.mk 1 none : Partial K).multiplyComponents d.toList = .ok acc
      ∧ (acc.parfactor = some q ∨ acc.parfactor = none ∧ make ∅ [] (some ⟨#[1]⟩) = .ok q)
      ∧ (acc.scalar = 1 ∧ q = p
        ∨ make q.constraints q.prvs (some (q.factor.map (· * acc.scalar))) = .ok p) := by
  obtain ⟨acc, hacc, h⟩ := bind_ok h
  have hlast : ∀ q : Parfactor K, (if Scalar.isOne acc.scalar then pure q
      else make q.constraints q.prvs (some (q.factor.map (· * acc.scalar)))) = .ok p →
      acc.scalar = 1 ∧ q = p
        ∨ make q.constraints q.prvs (some (q.factor.map (· * acc.scalar))) = .ok p := by
    intro q hq
    split at hq
    · exact .inl ⟨(ExactScalar.isOne_iff _).mp ‹_›, Except.ok.inj hq⟩
    · exact .inr hq
  refine ⟨acc, ?_⟩
  cases ho : acc.parfactor with
  | some q =>
    simp only [ho] at h
    exact ⟨q, hacc, .inl rfl, hlast q h⟩
  | none =>
    simp only [ho] at h
    obtain ⟨q, hq, h⟩ := bind_ok h
    exact ⟨q, hacc, .inr ⟨rfl, hq⟩, hlast q h⟩

/-- what has been multiplied in the end -/
theorem takes_product (hd : d.Uniform) (hsingle : d.SingleEntries)
    (hsound : ∀ c ∈ d.toList, c.Sound) (h : d.product = .ok p) : ∃ acc q,
    Partial.Takes d d.toList ⟨1, none⟩ acc
      ∧ (acc.parfactor = some q ∨ acc.parfactor = none ∧ make ∅ [] (some ⟨#[1]⟩) = .ok q)
      ∧ (acc.scalar = 1 ∧ q = p
        ∨ make q.constraints q.prvs (some (q.factor.map (· * acc.scalar))) = .ok p) := by
  obtain ⟨acc, q, hacc, hq, hlast⟩ := product_ok h
  exact ⟨acc, q, takes_multiplyComponents hd hsingle hsound (fun _ hc => hc)
    (fun _ hr => by cases hr) hacc, hq, hlast⟩

/-- **The numbers count once for every grounding** of the product. -/
theorem meaning_product (hd : d.Uniform) (hsingle : d.SingleEntries)
    (hsound : ∀ c ∈ d.toList, c.Sound) (h : d.product = .ok p) {w : World}
    (hw : w.Legal (scopeOf d.toList)) :
    p.meaning w = meaningOf d.randoms w * meaningOf d.constants w ^ p.solutions.card := by
  obtain ⟨acc, q, htakes, hq, hlast⟩ := takes_product hd hsingle hsound h
  have hscalar : acc.scalar = meaningOf d.constants w := (htakes.scalar w).trans (one_mul _)
  have hqmeaning : q.meaning w = meaningOf d.randoms w := by
    have hmeaning : acc.meaning w = meaningOf d.randoms w :=
      (htakes.meaning w hw).trans (one_mul _)
    rw [← hmeaning, Partial.meaning]
    rcases hq with hq | ⟨hq, hunit⟩
    · rw [hq]
    · rw [hq, meaning_unit hunit w]
  rcases hlast with ⟨hone, rfl⟩ | hmake
  · rw [hqmeaning, ← hscalar, hone, one_pow, mul_one]
  · obtain ⟨hsolutions, hmeaning⟩ := meaning_scaled hmake w
    rw [hmeaning, hqmeaning, hscalar, hsolutions]

/-- the product has groundings where all parts have some -/
theorem nonempty_product (hd : d.Uniform) (hsingle : d.SingleEntries)
    (hsound : ∀ c ∈ d.toList, c.Sound)
    (hne : ∀ r, .standard r ∈ d.toList → r.solutions.Nonempty) (h : d.product = .ok p) :
    p.solutions.Nonempty := by
  obtain ⟨acc, q, htakes, hq, hlast⟩ := takes_product hd hsingle hsound h
  have hqne : q.solutions.Nonempty := by
    rcases hq with hq | ⟨-, hunit⟩
    · obtain ⟨-, -, r, ⟨c, hc, ps, hps, hr⟩, -, hqr⟩ := htakes.fits q hq
      rw [hqr.solutions_eq]
      cases c with
      | standard t =>
        cases hps
        exact List.mem_singleton.mp hr ▸ hne t hc
      | aggregation a =>
        exact a.nonempty_of_mem_toParfactors (hsound _ hc) (hd.aggregated a hc) hps hr
    · obtain ⟨cs, qs, t⟩ := q
      obtain rfl : cs = ∅ := (make_ok hunit).1.constraints_eq
      obtain rfl : qs = [] := (make_ok hunit).1.prvs_eq
      exact ⟨default, mem_solutions.mpr ⟨⟨nofun, nofun⟩, fun _ _ => rfl⟩⟩
  rcases hlast with ⟨-, rfl⟩ | hmake
  · exact hqne
  · rwa [(meaning_scaled hmake default).1]

/-- **What the product means**: the components about random variables mean in it what they meant,
and the numbers count once for every grounding of the product.  So it means what the distribution
means if it has one grounding, or if the numbers multiply to one. -/
theorem product_meaning (haccepted : ∀ c ∈ d.toList, c.Accepted) (hexact : ∀ c ∈ d.toList, c.Exact)
    (hd : d.Uniform) (h : d.product = .ok p) : ∀ w : World, w.Legal (scopeOf d.toList) →
    p.meaning w = meaningOf d.randoms w * meaningOf d.constants w ^ p.solutions.card
      ∧ (p.solutions.card = 1 ∨ meaningOf d.constants w = 1 →
        p.meaning w = meaningOf d.toList w) := by
  intro w hw
  have hsingle : d.SingleEntries := fun q hq hconst => by
    have hq : q.Accepted := haccepted _ hq
    rw [hq.size_eq, sizes, List.isEmpty_iff.mp hconst]
    rfl
  have hmeaning := meaning_product hd hsingle
    (fun c hc => (haccepted c hc).sound (hexact c hc)) h hw
  refine ⟨hmeaning, fun hone => ?_⟩
  rw [hmeaning, ← meaningOf_filter_mul (·.isConstant) d.toList w]
  rcases hone with hone | hone
  · rw [hone, pow_one]
    rfl
  · rw [hone, one_pow, ← hone]
    rfl

end Distribution

/-! ## two statements about the sick, and a number -/

open scoped ExactScalar

namespace Epidemic

/-- the second parfactor is about the sick under another name -/
def rumour : Distribution Nat :=
  .ofList [.standard ⟨∅, [.atom (sick (.var person))], ⟨#[1, 2]⟩⟩,
    .standard ⟨∅, [.atom (sick (.var ⟨"Y", people⟩)), .atom epidemic], ⟨#[3, 1, 1, 2]⟩⟩,
    .standard ⟨∅, [], ⟨#[4]⟩⟩]

theorem accepted_rumour : ∀ c ∈ rumour.toList, c.Accepted := by
  refine Distribution.forall_mem_ofList (fun c hc => hc.squared) fun c hc => ?_
  simp only [List.mem_cons, List.not_mem_nil, or_false] at hc
  rcases hc with rfl | rfl | rfl <;> exact ⟨rfl, fun f hf => by simp at hf, by decide⟩

theorem parts_rumour : ∀ c ∈ rumour.toList, ∃ p, c = .standard p ∧ p.constraints = ∅
    ∧ (p.prvs = [.atom (sick (.var person))]
      ∨ p.prvs = [.atom (sick (.var ⟨"Y", people⟩)), .atom epidemic] ∨ p.prvs = []) := by
  refine Distribution.forall_mem_ofList ?_ fun c hc => ?_
  · rintro _ ⟨p, rfl, hcs, hprvs⟩
    exact ⟨p.squared, rfl, hcs, hprvs⟩
  · simp only [List.mem_cons, List.not_mem_nil, or_false] at hc
    rcases hc with rfl | rfl | rfl
    · exact ⟨_, rfl, rfl, .inl rfl⟩
    · exact ⟨_, rfl, rfl, .inr (.inl rfl)⟩
    · exact ⟨_, rfl, rfl, .inr (.inr rfl)⟩

theorem exact_rumour : ∀ c ∈ rumour.toList, c.Exact := by
  intro c hc
  obtain ⟨p, rfl, -, hprvs⟩ := parts_rumour c hc
  intro γ _ f hf
  rcases hprvs with h | h | h <;> simp [h] at hf

theorem uniform_rumour : rumour.Uniform := by
  have hparts : ∀ p, .standard p ∈ rumour.toList → p.constraints = ∅
      ∧ (p.prvs = [.atom (sick (.var person))]
        ∨ p.prvs = [.atom (sick (.var ⟨"Y", people⟩)), .atom epidemic] ∨ p.prvs = []) := by
    intro p hp
    obtain ⟨q, hq, h⟩ := parts_rumour _ hp
    cases hq
    exact h
  have hmem : ∀ p, rumour.IsPart p → .standard p ∈ rumour.toList := by
    rintro p ⟨c, hc, ps, hps, hp⟩
    obtain ⟨q, rfl, -⟩ := parts_rumour c hc
    cases hps
    exact List.mem_singleton.mp hp ▸ hc
  have hrandom : ∀ p, rumour.IsPart p → p.isConstant = false → p.logVars.length = 1
      ∧ ∀ f, Prv.count f ∉ p.prvs := by
    intro p hp hconst
    obtain ⟨cs, qs, t⟩ := p
    obtain ⟨hcs, hprvs⟩ := hparts _ (hmem _ hp)
    obtain rfl : cs = ∅ := hcs
    rcases hprvs with rfl | rfl | rfl
    · exact ⟨rfl, fun f hf => by simp at hf⟩
    · exact ⟨rfl, fun f hf => by simp at hf⟩
    · cases hconst
  refine ⟨fun p q hp hq hp' hq' => ⟨?_, fun f hf => absurd hf ((hrandom p hp hp').2 f)⟩,
    fun p hp hconst c hc => ?_, fun p hp hconst => ?_, fun a ha => ?_⟩
  · rw [(hrandom p hp hp').1, (hrandom q hq hq').1]
  · rw [(hparts p hp).1] at hc
    cases hc
  · have hcard := ConstraintSet.length_completions_eq
      (fun c hc => (nomatch hc) : ∀ c ∈ (∅ : ConstraintSet), c.isContradiction = false)
      List.nodup_nil
    obtain ⟨cs, qs, t⟩ := p
    obtain rfl : cs = ∅ := (hparts _ hp).1
    obtain rfl : qs = [] := List.isEmpty_iff.mp hconst
    exact hcard.ge.trans (by decide)
  · obtain ⟨q, hq, -⟩ := parts_rumour _ ha
    cases hq

end Epidemic

theorem Epidemic.product_meaning_rumour : ∃ p, rumour.product = .ok p
    ∧ ∀ w : World, w.Legal (scopeOf rumour.toList) →
      p.meaning w = meaningOf rumour.randoms w * meaningOf rumour.constants w ^ p.solutions.card
        ∧ (p.solutions.card = 1 ∨ meaningOf rumour.constants w = 1 →
          p.meaning w = meaningOf rumour.toList w) := by
  cases h : rumour.product with
  | error e =>
    have hok : rumour.product.isOk = true := by decide +kernel
    rw [h] at hok
    cases hok
  | ok p =>
    exact ⟨p, rfl, Distribution.product_meaning accepted_rumour exact_rumour uniform_rumour h⟩

end LiftedElimination
