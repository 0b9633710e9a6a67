import LiftedElimination.Proofs.Spacing
import LiftedElimination.Proofs.Tabulated

/-!
# The size of the table

The table of a parfactor has one entry for every assignment of its random variables.  The builder
checks this.  Instances are given the table of the parfactor they come from, which still fits since
the formulas of a spaced parfactor count as many individuals after a substitution as before it; all
other operations build a new table.

* `Parfactor.Sized`      a spaced parfactor whose table has the right size, and fits into memory;
* `Sized.apply`, .., `Sized.sumOut`   the operations keep it;
* `Sized.inBounds_normalize`, .., `Sized.inBounds_sumOut`   none of them reads outside of the table;
* `Parfactor.Derived`    what is made from builder-accepted parfactors by operations;
* `Parfactor.size_of_derived`   its table has the right size, and no operation leaves it.
-/

namespace LiftedElimination

variable {K : Type}

/-! ## tables of the right size -/

namespace Parfactor

variable {p q r : Parfactor K} {f : CountingFormula} {s : Substitution} {t : Term} {x : LogVar}
  {b : Binding} {v : Prv} {digits : List Nat}

/-- a spaced parfactor whose table has an entry for every assignment, and is none too large -/
structure Sized (p : Parfactor K) : Prop extends p.Spaced where
  size : p.factor.size = p.sizes.prod
  stored : p.factor.size ≤ Index.maxEntries

theorem sized_rebuild {cs : ConstraintSet} {prvs : List Prv} {entry : List Nat → Except Error K}
    (h : rebuild cs prvs entry = .ok q) (hq : q.Spaced) : q.Sized :=
  ⟨hq, (tabulated_of_rebuild h).size, (tabulated_of_rebuild h).stored⟩

/-- a formula over one individual has the values of its atom -/
theorem prod_sizes_replacePrv {i : Nat} {a : Atom} (hle : p.sizes.prod ≤ Index.maxEntries)
    (hi : p.prvs[i]? = some (.count f)) (hsize : f.domainSize = 1)
    (ha : a.range = f.inner.range) : (p.replacePrv i (.atom a)).sizes.prod = p.sizes.prod := by
  obtain ⟨hlt, hf⟩ := List.getElem?_eq_some_iff.mp hi
  have hold : p.sizes.prod = f.rangeSize * ((p.prvs.eraseIdx i).map Prv.rangeSize).prod := by
    rw [sizes, ← ((List.getElem_cons_eraseIdx_perm hlt).map Prv.rangeSize).prod_eq, hf,
      List.map_cons, List.prod_cons]
    rfl
  have hnew : (p.replacePrv i (.atom a)).sizes.prod
      = f.inner.range.size * ((p.prvs.eraseIdx i).map Prv.rangeSize).prod := by
    rw [sizes, replacePrv, ((List.set_perm_cons_eraseIdx hlt (.atom a)).map Prv.rangeSize).prod_eq,
      List.map_cons, List.prod_cons, ← ha]
    rfl
  rw [hnew, hold]
  rcases Nat.eq_zero_or_pos ((p.prvs.eraseIdx i).map Prv.rangeSize).prod with hzero | hpos
  · rw [hzero, Nat.mul_zero, Nat.mul_zero]
  · -- the range size is not cut off, since the table holds a multiple of it
    have hrange : f.rangeSize ≤ Index.maxEntries :=
      (hold ▸ Nat.le_mul_of_pos_right _ hpos : f.rangeSize ≤ p.sizes.prod).trans hle
    have hword : Index.maxEntries < maxWord := by decide
    have hmin := CountingFormula.rangeSize_of_one hsize
    rw [show f.inner.range.size = f.rangeSize by omega]

theorem sizes_apply_of_spaced (hp : p.Spaced) (hs : p.Admits s) (h : p.apply s = some q) :
    q.sizes = p.sizes := by
  have hdomain := fun f hf => domainSize_apply_of_spaces hp hs h (f := f) hf
  obtain ⟨ds, -, rfl⟩ := apply_eq_some h
  unfold sizes
  rw [List.map_map]
  refine List.map_congr_left fun r hr => ?_
  cases r with
  | atom a => rfl
  | count f => exact CountingFormula.rangeSize_congr rfl (hdomain f hr)

namespace Sized

theorem tabulated (hp : p.Sized) : p.Tabulated := ⟨hp.size, hp.stored⟩

/-- **An instance** keeps the table, and the table keeps its size. -/
theorem apply (hp : p.Sized) (hs : p.Admits s) (h : p.apply s = some q) : q.Sized := by
  have hspaced := hp.toSpaced.apply hs h
  have hsizes := sizes_apply_of_spaced hp.toSpaced hs h
  obtain ⟨ds, -, rfl⟩ := apply_eq_some h
  exact ⟨hspaced, hp.size.trans (congrArg _ hsizes.symm), hp.stored⟩

theorem simplifyRound (hp : p.Sized) (h : p.simplifyRound = .ok (some q)) : q.Sized := by
  have hspaced := hp.toSpaced.simplifyRound h
  obtain ⟨i, f, hi, ⟨-, hdrop⟩ | ⟨hone, a, hsole, rfl⟩⟩ := simplifyRound_ok h
  · exact sized_rebuild hdrop hspaced
  · obtain ⟨-, c, -, rfl⟩ := soleAtom?_eq_some hsole
    have hprod := prod_sizes_replacePrv (a := f.instantiate (.const c))
      (hp.size ▸ hp.stored) hi hone rfl
    exact ⟨hspaced, hp.size.trans hprod.symm, hp.stored⟩

theorem mergeRound (hp : p.Sized) (h : p.mergeRound = .ok (some q)) : q.Sized := by
  obtain ⟨_, _, _, -, -, -, hmerge⟩ := mergeRound_ok h
  exact sized_rebuild hmerge (hp.toSpaced.mergeRound h)

theorem ground (hp : p.Sized)
    (h : groundSingletons logVars constraints Parfactor.apply p = .ok (some q)) :
    q.Sized :=
  (groundSingletons_ok (I := fun o => ∀ q, o = some q → q.Sized) (fun _ _ _ => nofun)
    (fun q _ _ hq hx hc _ hr => (hq q rfl).apply
      ((hq q rfl).proper.admits (binds_of_individuals_eq hc hx)) hr)
    (fun _ hq => Option.some.inj hq ▸ hp) h).1 q rfl

theorem simplifyCounting (hp : p.Sized) (h : p.simplifyCounting = .ok q) : q.Sized :=
  (settle_ok (p := Sized) (fun _ _ ha hab => ha.simplifyRound hab) hp h).1

theorem normalize (hp : p.Sized) (h : p.normalize = .ok (some q)) : q.Sized := by
  obtain ⟨g, hg, ⟨-, hr⟩ | ⟨r, t, u, rfl, ht, hu, hqu⟩⟩ := normalize_ok h
  · cases hr
  cases hqu
  exact (settle_ok (p := Sized) (fun _ _ ha hab => ha.mergeRound hab)
    ((hp.ground hg).simplifyCounting ht) hu).1

theorem expand (hp : p.Sized) (h : p.expand f t = .ok q) : q.Sized := by
  obtain ⟨_, -, -, ⟨-, hq⟩ | ⟨-, hq⟩⟩ := expand_ok h <;>
    exact sized_rebuild hq (hp.toSpaced.expand h)

section
variable [Scalar K]

theorem split {parts : Split (Parfactor K)} (hp : p.Sized) (h : p.split b = .ok parts) :
    parts.fragment.Sized ∧ parts.residual.Sized := by
  have hspaced := (hp.toSpaced.split h).2
  obtain ⟨hon, hfragment, hresidual⟩ := split_ok h
  refine ⟨hp.apply (hp.proper.admits hon.binds) hfragment, hspaced, ?_, ?_⟩ <;> rw [hresidual]
  · exact hp.size
  · exact hp.stored

theorem count (hp : p.Sized) (h : p.count x = .ok r) : r.Sized := by
  obtain ⟨-, _, _, -, -, hr⟩ := count_ok h
  exact sized_rebuild hr (hp.toSpaced.count h)

theorem multiply (hp : p.Sized) (hq : q.Sized) (h : p.multiply q = .ok r) : r.Sized :=
  sized_rebuild (multiply_ok h).2 (hp.toSpaced.multiply hq.toSpaced h)

theorem sumOut (hp : p.Sized) (h : p.sumOut v = .ok r) : r.Sized := by
  obtain ⟨_, -, -, -, hr⟩ := sumOut_ok h
  exact sized_rebuild hr (hp.toSpaced.sumOut h)

end

end Sized

end Parfactor

/-! ## lookups within the table -/

/-- the computation does not end with a lookup outside of a table -/
abbrev InBounds {α : Type} (x : Except Error α) : Prop := ErrorsIn (· ≠ .tableBounds) x

namespace Parfactor

namespace Sized

variable {p q : Parfactor K} {f : CountingFormula} {v : Prv} {digits : List Nat} {i : Nat}

/-! ### normal forms -/

theorem inBounds_simplifyRound (hp : p.Sized) : InBounds p.simplifyRound := by
  unfold Parfactor.simplifyRound
  split
  · exact .ok _
  · rename_i i hi
    obtain ⟨f, hf, ⟨hzero, -⟩ | ⟨-, b, -, hb⟩⟩ := trivialFormula?_eq_some hi
    · exact (errorsIn_rebuild_below nofun fun _ _ hd => hp.tabulated.errorsIn_droppedEntry hf
        (CountingFormula.rangeSize_pos_of_nobody hzero) hd).map
    · cases hb
  · exact .ok _

theorem inBounds_mergeRound (hp : p.Sized) : InBounds p.mergeRound := by
  unfold Parfactor.mergeRound
  split
  · exact .ok _
  · rename_i i j hij
    obtain ⟨hlt, -, r, hi, hj⟩ := repeated?_eq_some hij
    rw [List.nil_append] at hi hj
    exact (errorsIn_rebuild_below nofun fun _ _ hd =>
      hp.tabulated.errorsIn_mergedEntry hlt hi hj hd).map

theorem inBounds_normalize (hp : p.Sized) : InBounds p.normalize := by
  refine (errorsIn_ground hp.proper).bind fun g hg => ?_
  cases g with
  | none => exact .ok _
  | some q =>
    have hq := hp.ground hg
    refine ErrorsIn.bind ?_ fun s hs => ErrorsIn.bind ?_ fun _ _ => .ok _
    · exact errorsIn_settle (I := Sized) (m := fun q => (q.prvs.filterMap Prv.count?).length)
        (fun a b ha hab => ⟨ha.simplifyRound hab, length_formulas_simplifyRound hab⟩)
        (fun a ha => ha.inBounds_simplifyRound) hq (List.length_filterMap_le _ _)
    · exact errorsIn_settle (I := Sized) (m := fun q => q.prvs.length)
        (fun a b ha hab => ⟨ha.mergeRound hab, length_prvs_mergeRound hab⟩)
        (fun a ha => ha.inBounds_mergeRound) (hq.simplifyCounting hs) le_rfl

/-! ### expansion -/

theorem inBounds_expand (hp : p.Sized) (f : CountingFormula) (t : Term) :
    InBounds (p.expand f t) :=
  errorsIn_expand_of_rebuild (fun _ => nofun)
    (fun _ hi => errorsIn_rebuild_below nofun fun hle _ hd =>
      hp.tabulated.errorsIn_expandEntry (a := f.instantiate t) hi rfl rfl hle hd)
    fun _ hi => errorsIn_rebuild_below nofun fun _ _ hd =>
      hp.tabulated.errorsIn_expandLastEntry (a := f.instantiate t) hi rfl hd

section
variable [Scalar K]

/-! ### counting -/

theorem inBounds_count (hp : p.Sized) (x : LogVar) : InBounds (p.count x) := by
  unfold Parfactor.count
  cases hc : p.isCountable x with
  | false => exact .error nofun
  | true =>
    cases hh : p.holder? x with
    | none => exact .error nofun
    | some s =>
      obtain ⟨i, r⟩ := s
      cases r with
      | count f => exact .error nofun
      | atom a =>
        refine (CountingFormula.errorsIn_make (fun _ => nofun) _ _ _).bind fun f hf => ?_
        obtain ⟨rfl, -, -⟩ := CountingFormula.make_ok hf
        exact errorsIn_rebuild_below nofun fun hle digits hd =>
          hp.tabulated.errorsIn_countEntry (holder?_eq_some hh).1 rfl rfl hle hd

/-! ### products and sums -/

theorem inBounds_multiply (hp : p.Sized) (hq : q.Sized) : InBounds (p.multiply q) := by
  unfold Parfactor.multiply
  cases p.isMultipliable q with
  | false => exact .error nofun
  | true =>
    exact errorsIn_rebuild_below nofun fun _ _ hd =>
      hp.tabulated.errorsIn_productEntry hq.tabulated hd

theorem inBounds_sumOut (hp : p.Sized) (v : Prv) : InBounds (p.sumOut v) := by
  unfold Parfactor.sumOut
  split
  · rename_i i hone hposition
    exact errorsIn_rebuild_below nofun fun _ digits hd =>
      (hp.tabulated.errorsIn_sumFrom (getElem?_of_position? hposition) hd).bind fun _ _ => .ok _
  · exact .error nofun
  · exact .error nofun

end

end Sized

/-! ## everything that is made from accepted parfactors -/

variable [Scalar K]

/-- what operations make from parfactors that the builder accepts and whose formulas are spaced;
substitutions stay within the populations and are captured by no formula -/
inductive Derived : Parfactor K → Prop where
  | accepted {p : Parfactor K} (h : p.Accepted) (hordered : (Component.standard p).IsOrdered)
    (hspaces : ∀ f, Prv.count f ∈ p.prvs → p.Spaces f) : Derived p
  | apply {p q : Parfactor K} {s : Substitution} (hp : Derived p) (hs : p.Admits s)
    (h : p.apply s = some q) : Derived q
  | fragment {p : Parfactor K} {b : Binding} {parts : Split (Parfactor K)} (hp : Derived p)
    (h : p.split b = .ok parts) : Derived parts.fragment
  | residual {p : Parfactor K} {b : Binding} {parts : Split (Parfactor K)} (hp : Derived p)
    (h : p.split b = .ok parts) : Derived parts.residual
  | normalize {p q : Parfactor K} (hp : Derived p) (h : p.normalize = .ok (some q)) : Derived q
  | count {p q : Parfactor K} {x : LogVar} (hp : Derived p) (h : p.count x = .ok q) : Derived q
  | expand {p q : Parfactor K} {f : CountingFormula} {t : Term} (hp : Derived p)
    (h : p.expand f t = .ok q) : Derived q
  | multiply {p q r : Parfactor K} (hp : Derived p) (hq : Derived q) (h : p.multiply q = .ok r) :
    Derived r
  | sumOut {p q : Parfactor K} {v : Prv} (hp : Derived p) (h : p.sumOut v = .ok q) : Derived q

theorem Derived.sized {p : Parfactor K} (h : p.Derived) : p.Sized := by
  induction h with
  | accepted h hordered hspaces =>
    exact ⟨⟨(Component.Accepted.proper (c := .standard _) h), hordered, hspaces⟩, h.size_eq, h.stored⟩
  | apply _ hs h ih => exact ih.apply hs h
  | fragment _ h ih => exact (ih.split h).1
  | residual _ h ih => exact (ih.split h).2
  | normalize _ h ih => exact ih.normalize h
  | count _ h ih => exact ih.count h
  | expand _ h ih => exact ih.expand h
  | multiply _ _ h ihp ihq => exact ihp.multiply ihq h
  | sumOut _ h ih => exact ih.sumOut h

/-- **The table of a derived parfactor** has one entry for every assignment of its random variables,
and no operation looks outside of it. -/
theorem size_of_derived {p : Parfactor K} (h : p.Derived) : p.factor.size = p.sizes.prod
    ∧ (∀ digits, Index.Below digits p.sizes → ∃ x, p.factor.entry p.sizes digits = .ok x
        ∧ p.factor.get? (Index.indexOf p.sizes digits) = some x
        ∧ Index.digitsOf p.sizes (Index.indexOf p.sizes digits) = digits)
    ∧ InBounds p.normalize ∧ (∀ x, InBounds (p.count x)) ∧ (∀ f t, InBounds (p.expand f t))
    ∧ (∀ q : Parfactor K, q.Derived → InBounds (p.multiply q)) ∧ ∀ v, InBounds (p.sumOut v) := by
  have hp := h.sized
  refine ⟨hp.size, fun digits hd => ?_, hp.inBounds_normalize, hp.inBounds_count,
    hp.inBounds_expand, fun q hq => hp.inBounds_multiply hq.sized, hp.inBounds_sumOut⟩
  obtain ⟨x, hentry, hget⟩ := Factor.entry_eq hp.size hp.stored hd
  exact ⟨x, hentry, hget, Index.digitsOf_indexOf hd⟩

end Parfactor

/-! ## an outbreak -/

open scoped ExactScalar

namespace Epidemic

/-- how many others can infect somebody, apart from `x1` -/
def outsideSources : CountingFormula :=
  ⟨person, infects (.var person) (.var other),
    .ofList [.ordered person (.var other), .ordered person (.const ⟨"x1"⟩)]⟩

/-- an epidemic depends on how many of these everybody but `x1` has -/
def outbreak : Parfactor Nat :=
  ⟨.ofList [.ordered other (.const ⟨"x1"⟩)], [.count outsideSources, .atom epidemic],
    ⟨#[4, 1, 2, 3]⟩⟩

theorem derived_outbreak : outbreak.Derived := by
  have hformula : ∀ f, Prv.count f ∈ outbreak.prvs → f = outsideSources := fun f hf => by
    simpa [outbreak] using hf
  have hordered : ∀ cs ∈ [outbreak.constraints, outsideSources.constraints],
      ∀ c ∈ cs, Constraint.ordered c.first c.second = c := by decide
  refine .accepted ⟨rfl, fun f hf => ?_, by decide⟩
    ⟨hordered _ List.mem_cons_self, fun q hq f hqf => ?_⟩ fun f hf => ?_
  · rw [hformula f hf]
    rfl
  · subst hqf
    rw [hformula f hq]
    exact hordered _ (List.mem_cons_of_mem _ List.mem_cons_self)
  · rw [hformula f hf]
    exact ⟨by decide, by decide⟩

end Epidemic

/-- the part of the outbreak where `x2` is the one to be infected -/
theorem Epidemic.size_of_derived_outbreak : ∃ parts,
    outbreak.split ⟨other, .const ⟨"x2"⟩⟩ = .ok parts ∧ parts.fragment.Derived
      ∧ parts.fragment.factor.size = parts.fragment.sizes.prod
      ∧ InBounds parts.fragment.normalize := by
  cases h : outbreak.split ⟨other, .const ⟨"x2"⟩⟩ with
  | error e =>
    have hok : (outbreak.split ⟨other, .const ⟨"x2"⟩⟩).isOk = true := by decide
    rw [h] at hok
    cases hok
  | ok parts =>
    have hderived := derived_outbreak.fragment h
    obtain ⟨hsize, -, hnormalize, -⟩ := Parfactor.size_of_derived hderived
    exact ⟨parts, rfl, hderived, hsize, hnormalize⟩

/-- without the inequality of `Y` and `x1` an instance has a table of another size than its random
variables -/
example : (({ Epidemic.outbreak with constraints := ∅ } : Parfactor Nat).apply
    (.single ⟨Epidemic.other, .const ⟨"x1"⟩⟩)).map (fun q => (q.factor.size, q.sizes))
      = some (4, [3, 2]) := by decide

end LiftedElimination
