import LiftedElimination.Proofs.Folding

/-!
# Accepted components

What the builders accept is sound, provided that its counting formulas are exact: the checks of the
builders are what soundness asks for.

* `Component.Accepted`     built by the builders, with a table that memory holds;
* `Component.Exact`        every formula counts as many individuals as its domain size says, and
                           somebody at all, under every grounding;
* `Component.Accepted.sound`   accepted and exact components are sound.
-/

namespace LiftedElimination

open Finset

variable {K : Type} [Scalar K]

/-- built by the builder of counting formulas -/
def CountingFormula.Accepted (f : CountingFormula) : Prop :=
  CountingFormula.make f.bound f.inner f.constraints = .ok f

theorem CountingFormula.Accepted.valid {f : CountingFormula} (h : f.Accepted) : f.Valid := by
  obtain ⟨-, hbound, hcs⟩ := make_ok h
  exact ⟨hbound, fun c hc => (hcs c hc).1, fun c hc => (hcs c hc).2⟩

namespace Parfactor

/-- built by the builder, from accepted formulas and a table that memory holds -/
structure Accepted (p : Parfactor K) : Prop where
  made : make p.constraints p.prvs (some p.factor) = .ok p
  formulas : ∀ f, Prv.count f ∈ p.prvs → f.Accepted
  stored : p.factor.size ≤ Index.maxEntries

/-- every formula is exact under every grounding -/
def Exact (p : Parfactor K) : Prop := ∀ γ ∈ p.solutions, ∀ f, Prv.count f ∈ p.prvs → f.Exact γ

theorem Accepted.size_eq {p : Parfactor K} (h : p.Accepted) : p.factor.size = p.sizes.prod := by
  have hvolume := Index.volumeFrom?_ok (make_ok h.made).1.size
  rwa [Nat.one_mul] at hvolume

theorem Accepted.satisfiable {p : Parfactor K} (h : p.Accepted) :
    ∀ c ∈ p.constraints, c.isContradiction = false := (make_ok h.made).1.satisfiable

theorem Accepted.proper {p : Parfactor K} (h : p.Accepted) : p.Proper := by
  have hmade := (make_ok h.made).1
  refine ⟨fun r hr => ?_, fun f hf hx => ?_⟩
  · cases r with
    | atom a => trivial
    | count f => exact (h.formulas f hr).valid
  · rcases mem_logVars.mp hx with ⟨r, hr, hx⟩ | hx
    · exact (hmade.bound f hf).1 r hr hx
    · exact (hmade.bound f hf).2 hx

theorem Accepted.sound {p : Parfactor K} (h : p.Accepted) (hexact : p.Exact) : p.Sound := by
  refine ⟨h.proper.valid, h.satisfiable, h.proper.bound, fun γ hγ r hr => ?_, fun _ hpos => ?_⟩
  · cases r with
    | atom a => trivial
    | count f => exact hexact γ hγ f hr
  · exact tabular_of_le (h.size_eq ▸ h.stored) hpos

end Parfactor

namespace Aggregation

/-- built by the builder, with a table that memory holds -/
structure Accepted (a : Aggregation K) : Prop where
  made : make a.constraints a.parent a.child a.context a.operator (some a.factor) = .ok a
  stored : a.factor.size ≤ Index.maxEntries

/-- the parents are counted exactly under every grounding -/
def Exact (a : Aggregation K) : Prop := ∀ γ ∈ a.solutions, a.formula.Exact γ

/-- a product that is cut off at 64 bits is exact as long as it fits into memory -/
theorem foldl_min_eq {context : List Atom} {acc : Nat}
    (hpos : 0 < acc * (context.map (·.range.size)).prod)
    (hle : context.foldl (fun acc p => min (acc * p.range.size) maxWord) acc ≤ Index.maxEntries) :
    context.foldl (fun acc p => min (acc * p.range.size) maxWord) acc
      = acc * (context.map (·.range.size)).prod := by
  induction context generalizing acc with
  | nil => exact (Nat.mul_one acc).symm
  | cons p context ih =>
    rw [List.foldl_cons] at hle ⊢
    rw [List.map_cons, List.prod_cons, ← Nat.mul_assoc] at hpos ⊢
    have hrest : 0 < (context.map (·.range.size)).prod := Nat.pos_of_mul_pos_left hpos
    have hacc : 0 < acc * p.range.size := Nat.pos_of_mul_pos_right hpos
    have hmin : 0 < min (acc * p.range.size) maxWord := lt_min hacc (by decide)
    have hfold := ih (Nat.mul_pos hmin hrest) hle
    rw [hfold] at hle ⊢
    have hsmall : min (acc * p.range.size) maxWord ≤ Index.maxEntries :=
      (Nat.le_mul_of_pos_right _ hrest).trans hle
    have hword : Index.maxEntries < maxWord := by decide
    rw [Nat.min_eq_left]
    omega

/-- what the builder has checked -/
theorem make_ok {cs : ConstraintSet} {parent child : Atom} {context : List Atom} {op : Operator}
    {t : Factor K} {a : Aggregation K} (h : make cs parent child context op (some t) = .ok a) :
    ∃ extra, a = ⟨cs, parent, child, context, t, op, extra⟩ ∧ extra? parent child = some extra
      ∧ (∀ x ∈ child.variables, x ∈ parent.variables) ∧ parent.range = child.range
      ∧ (∀ c ∈ context, extra ∉ c.variables) ∧ t.size = expectedSize parent context := by
  unfold make at h
  split at h
  · cases h
  · rename_i extra hextra
    cases hfind : child.variables.find? (· ∉ parent.variables) with
    | some x =>
      rw [hfind] at h
      cases h
    | none =>
    by_cases hrange : parent.range ≠ child.range
    · rw [hfind, if_pos hrange] at h
      cases h
    cases hcontext : context.find? (fun p => extra ∈ p.variables) with
    | some p =>
      rw [hfind, if_neg hrange, hcontext] at h
      cases h
    | none =>
    rw [hfind, if_neg hrange, hcontext] at h
    obtain ⟨u, hu, h⟩ := bind_ok h
    cases hu
    obtain ⟨⟨⟩, hsize, h⟩ := bind_ok h
    cases h
    refine ⟨extra, rfl, hextra, fun x hx => ?_, not_not.mp hrange, fun c hc hx => ?_, ?_⟩
    · simpa using List.find?_eq_none.mp hfind x hx
    · simpa [hx] using List.find?_eq_none.mp hcontext c hc
    · unfold Factor.checkSize at hsize
      split at hsize
      · assumption
      · cases hsize

theorem extra?_eq_some {parent child : Atom} {x : LogVar} (h : extra? parent child = some x) :
    x ∈ parent.variables ∧ x ∉ child.variables := by
  unfold extra? at h
  split at h
  · rename_i y hy
    cases h
    have hmem : x ∈ parent.variables.filter (· ∉ child.variables) :=
      hy ▸ List.mem_singleton.mpr rfl
    simpa using List.mem_filter.mp hmem
  · cases h

/-- what the builder checks of the form -/
structure Formed (a : Aggregation K) : Prop where
  extra_mem : a.extra ∈ a.parent.variables
  child : ∀ x ∈ a.child.variables, x ∈ a.parent.variables ∧ x ≠ a.extra
  context : ∀ b ∈ a.context, a.extra ∉ b.variables
  range : a.parent.range = a.child.range
  size : a.factor.size = expectedSize a.parent a.context

theorem Accepted.formed {a : Aggregation K} (h : a.Accepted) : a.Formed := by
  obtain ⟨extra, ha, hextra, hchild, hrange, hcontext, hsize⟩ := make_ok h.made
  have heq : a.extra = extra := congrArg Aggregation.extra ha
  obtain ⟨hparent, hnot⟩ := extra?_eq_some (heq.symm ▸ hextra)
  exact ⟨hparent, fun x hx => ⟨hchild x hx, fun he => hnot (he ▸ hx)⟩,
    fun c hc => heq.symm ▸ hcontext c hc, hrange, hsize⟩

/-- a table that memory holds has an entry for every value of the parent and the context -/
theorem Accepted.size_eq {a : Aggregation K} (h : a.Accepted) (hpos : 0 < a.sizes.prod) :
    a.factor.size = a.sizes.prod := by
  have hsize := h.formed.size
  have hle : expectedSize a.parent a.context ≤ Index.maxEntries := hsize ▸ h.stored
  rw [sizes, List.prod_cons] at hpos
  rw [sizes, List.prod_cons, hsize]
  exact foldl_min_eq hpos hle

theorem Accepted.sound {a : Aggregation K} (h : a.Accepted) (hexact : a.Exact) : a.Sound :=
  ⟨h.formed.extra_mem, h.formed.child, h.formed.context, h.formed.range, hexact, h.size_eq,
    h.stored⟩

end Aggregation

/-! ## components and marginals -/

/-- the builder accepts what passes its checks -/
theorem Parfactor.make_of_made {cs : ConstraintSet} {prvs : List Prv} {t : Factor K}
    (h : Made cs prvs ⟨cs, prvs, t⟩) : make cs prvs (some t) = .ok ⟨cs, prvs, t⟩ := by
  have hexpected : expectedSize prvs = .ok t.size := by
    unfold expectedSize
    rw [h.size]
  have hsat : cs.toList.find? Constraint.isContradiction = none :=
    List.find?_eq_none.mpr fun c hc => ne_true_of_eq_false (h.satisfiable c hc)
  have hbound : (prvs.filterMap Prv.count?).find? (fun f => occursFree cs prvs f.bound) = none := by
    refine List.find?_eq_none.mpr fun f hf => ?_
    obtain ⟨q, hq, hqf⟩ := List.mem_filterMap.mp hf
    have hfree : ¬ occursFree cs prvs f.bound = true := by
      cases q with
      | atom a => cases hqf
      | count g =>
        cases hqf
        obtain ⟨hprvs, hcs⟩ := h.bound f hq
        rw [occursFree_iff]
        rintro (⟨r, hr, hx⟩ | hx)
        · exact hprvs r hr hx
        · exact hcs hx
    exact hfree
  have hsize : t.checkSize t.size = .ok () := if_pos rfl
  unfold make
  rw [hexpected, hsat, hbound]
  show (t.checkSize t.size >>= fun _ => Except.ok (⟨cs, prvs, t⟩ : Parfactor K)) = _
  rw [hsize]
  rfl

theorem Parfactor.Accepted.squared {p : Parfactor K} (h : p.Accepted) : p.squared.Accepted := by
  have hsize : p.squared.factor.size = p.factor.size := Factor.size_map _ _
  obtain ⟨-, -, hvolume, hsat, hbound⟩ := (make_ok h.made).1
  exact ⟨make_of_made ⟨rfl, rfl, hsize.symm ▸ hvolume, hsat, hbound⟩, h.formulas,
    hsize ▸ h.stored⟩

theorem Aggregation.make_of_checks {cs : ConstraintSet} {parent child : Atom} {context : List Atom}
    {op : Operator} {t : Factor K} {extra : LogVar} (hextra : extra? parent child = some extra)
    (hchild : ∀ x ∈ child.variables, x ∈ parent.variables) (hrange : parent.range = child.range)
    (hcontext : ∀ c ∈ context, extra ∉ c.variables)
    (hsize : t.size = expectedSize parent context) :
    make cs parent child context op (some t) = .ok ⟨cs, parent, child, context, t, op, extra⟩ := by
  have hfind : child.variables.find? (· ∉ parent.variables) = none :=
    List.find?_eq_none.mpr fun x hx => by simpa using hchild x hx
  have hnone : context.find? (fun p => extra ∈ p.variables) = none :=
    List.find?_eq_none.mpr fun c hc => by simpa using hcontext c hc
  have hcheck : t.checkSize (expectedSize parent context) = .ok () := if_pos hsize
  unfold make
  rw [hextra]
  dsimp only
  rw [hfind, if_neg (not_not.mpr hrange), hnone]
  show (t.checkSize (expectedSize parent context) >>= fun _ =>
    Except.ok (⟨cs, parent, child, context, t, op, extra⟩ : Aggregation K)) = _
  rw [hcheck]
  rfl

theorem Aggregation.Accepted.squared {a : Aggregation K} (h : a.Accepted) :
    a.squared.Accepted := by
  have hsize : a.squared.factor.size = a.factor.size := Factor.size_map _ _
  obtain ⟨extra, ha, hextra, hchild, hrange, hcontext, htable⟩ := make_ok h.made
  refine ⟨?_, hsize ▸ h.stored⟩
  have heq : a.extra = extra := congrArg Aggregation.extra ha
  have hmade : make a.constraints a.parent a.child a.context a.operator (some a.squared.factor)
      = .ok ⟨a.constraints, a.parent, a.child, a.context, a.squared.factor, a.operator, extra⟩ :=
    make_of_checks hextra hchild hrange hcontext (hsize.trans htable)
  rw [← heq] at hmade
  exact hmade

namespace Component

def Accepted : Component K → Prop
  | standard p => p.Accepted
  | aggregation a => a.Accepted

def Exact : Component K → Prop
  | standard p => p.Exact
  | aggregation a => a.Exact

theorem Accepted.sound {c : Component K} (h : c.Accepted) (hexact : c.Exact) : c.Sound := by
  cases c with
  | standard p => exact Parfactor.Accepted.sound h hexact
  | aggregation a => exact Aggregation.Accepted.sound h hexact

theorem Accepted.squared {c : Component K} (h : c.Accepted) : c.squared.Accepted := by
  cases c with
  | standard p => exact Parfactor.Accepted.squared h
  | aggregation a => exact Aggregation.Accepted.squared h

theorem Exact.squared {c : Component K} (h : c.Exact) : c.squared.Exact := by
  cases c with
  | standard p => exact h
  | aggregation a => exact h

end Component

namespace Marginal

/-- the builders have accepted all components -/
def Accepted (m : Marginal K) : Prop := ∀ c ∈ m.distribution.toList, c.Accepted

/-- all formulas count what their domain size says, and somebody at all -/
def Exact (m : Marginal K) : Prop := ∀ c ∈ m.distribution.toList, c.Exact

theorem Accepted.sound {m : Marginal K} (h : m.Accepted) (hexact : m.Exact) :
    ∀ c ∈ m.distribution.toList, c.Sound := fun c hc => (h c hc).sound (hexact c hc)
end Marginal

namespace Distribution

section
variable {P : Component K → Prop}

/-- what holds of components and of their squares holds of everything in the distribution -/
theorem forall_mem_absorb (hsquared : ∀ c, P c → P c.squared) (s : SortedSet (Component K))
    (c : Component K) (hs : ∀ d ∈ s.toList, P d) (hc : P c) : ∀ d ∈ (absorb s c).toList, P d := by
  induction s, c using absorb.induct with
  | case1 s c h _ ih =>
    rw [absorb, dif_pos h]
    exact ih (fun d hd => hs d (List.mem_filter.mp hd).1) (hsquared c hc)
  | case2 s c h =>
    rw [absorb, dif_neg h]
    exact SortedSet.forall_insertList hc hs

theorem forall_mem_addAll (hsquared : ∀ c, P c → P c.squared) {l : List (Component K)}
    (h : ∀ c ∈ l, P c) (d : Distribution K) (hd : ∀ c ∈ d.toList, P c) :
    ∀ c ∈ (d.addAll l).toList, P c := by
  induction l generalizing d with
  | nil => exact hd
  | cons c l ih =>
    exact ih (fun b hb => h b (List.mem_cons_of_mem _ hb)) (d.add c)
      (forall_mem_absorb hsquared d.components c hd (h c List.mem_cons_self))

theorem forall_mem_ofList (hsquared : ∀ c, P c → P c.squared) {l : List (Component K)}
    (h : ∀ c ∈ l, P c) : ∀ c ∈ (ofList l).toList, P c :=
  forall_mem_addAll hsquared h empty fun _ hc => absurd hc List.not_mem_nil

end

end Distribution

/-- a marginal of accepted components has accepted components, squares included -/
theorem Marginal.accepted_make {l : List (Component K)} {kept : List PrvSet}
    (h : ∀ c ∈ l, c.Accepted) : (make l kept).Accepted :=
  Distribution.forall_mem_ofList (P := Component.Accepted) (fun _ => Component.Accepted.squared) h

theorem Marginal.exact_make {l : List (Component K)} {kept : List PrvSet}
    (h : ∀ c ∈ l, c.Exact) : (make l kept).Exact :=
  Distribution.forall_mem_ofList (P := Component.Exact) (fun _ => Component.Exact.squared) h

end LiftedElimination
