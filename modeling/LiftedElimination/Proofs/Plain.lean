import LiftedElimination.Proofs.Guarded
import LiftedElimination.Proofs.Tabulated

/-!
# Shattering where nothing is counted

Where all random variables are atoms, a comparison can only ask for splits, and where inequalities
relate variables of one population, every split that is asked for can be made.  The pieces have full
tables again, and the tables only get smaller, so shattering never fails.

* `Parfactor.Flat`       a parfactor over atoms with regular inequalities and a full table;
* `Flat.normalize`, `Component.Flat.perform`   normal forms and splits are found, and are flat again;
* `isSplittable_of_asked`   what a comparison asks for is a split that can be made;
* `Marginal.Visits`      the lists of components that shattering goes through;
* `shatter_plain`        **shattering succeeds, and every split proposed on the way can be made.**
-/

namespace LiftedElimination

variable {K : Type}

/-! ## parfactors over atoms -/

namespace Parfactor

/-- a parfactor over atoms with regular inequalities and a full table, whose size fits -/
structure Flat (p : Parfactor K) : Prop where
  constraints : p.constraints.Regular
  atoms : ∀ q ∈ p.prvs, ∃ a, q = .atom a
  tabulated : p.Tabulated
  fits : Index.Fits p.sizes

namespace Flat

variable {p q : Parfactor K} {b : Binding} {P : Error → Prop}

theorem notMem_count (hp : p.Flat) (f : CountingFormula) : Prv.count f ∉ p.prvs := fun hf => by
  obtain ⟨a, ha⟩ := hp.atoms _ hf
  cases ha

theorem proper (hp : p.Flat) : p.Proper where
  valid r hr := by
    obtain ⟨a, rfl⟩ := hp.atoms r hr
    trivial
  bound f hf := absurd hf (hp.notMem_count f)

theorem squared [Scalar K] (hp : p.Flat) : p.squared.Flat where
  constraints := hp.constraints
  atoms := hp.atoms
  tabulated := ⟨(Factor.size_map _ _).trans hp.tabulated.size,
    (Factor.size_map _ _).trans_le hp.tabulated.stored⟩
  fits := hp.fits

/-- a substitution changes no range, so the table stays as it is -/
theorem apply {s : Substitution} (hp : p.Flat) (hs : s.KeepsPopulations) (h : p.apply s = some q) :
    q.Flat := by
  obtain ⟨cs, hcs, rfl⟩ := apply_eq_some h
  have hatoms : ∀ r ∈ p.prvs.map (·.apply s), ∃ a, r = .atom a := fun r hr => by
    obtain ⟨t, ht, rfl⟩ := List.mem_map.mp hr
    obtain ⟨a, rfl⟩ := hp.atoms t ht
    exact ⟨a.apply s, rfl⟩
  have hsizes : sizes ⟨cs, p.prvs.map (·.apply s), p.factor⟩ = p.sizes := by
    rw [sizes, List.map_map]
    refine List.map_congr_left fun t ht => ?_
    obtain ⟨a, rfl⟩ := hp.atoms t ht
    rfl
  refine ⟨hp.constraints.apply hs hcs, hatoms, ⟨?_, hp.tabulated.stored⟩, ?_⟩
  · rw [hsizes]
    exact hp.tabulated.size
  · rw [hsizes]
    exact hp.fits

theorem residual (hp : p.Flat) (hb : SplitsOn p.logVars p.constraints b) :
    Flat { p with constraints := p.constraints.insert (.ofBinding b) } where
  constraints := hp.constraints.insert hb.target_ne fun y hy => (hb.var y hy).2
  atoms := hp.atoms
  tabulated := ⟨hp.tabulated.size, hp.tabulated.stored⟩
  fits := hp.fits

/-! ### normal forms -/

/-- there is no formula to simplify -/
theorem simplifyCounting (hp : p.Flat) : p.simplifyCounting = .ok p := by
  have hnone : p.trivialFormula? = none :=
    trivialFormula?_eq_none_iff.mpr fun f hf => absurd hf (hp.notMem_count f)
  exact settle_of_none (by rw [simplifyRound, hnone]) _

theorem mergeRound (hp : p.Flat) (h : p.mergeRound = .ok (some q)) : q.Flat where
  constraints := by
    obtain ⟨i, j, r, -, -, -, hmerge⟩ := mergeRound_ok h
    exact (rebuild_ok hmerge).1 ▸ hp.constraints
  atoms r hr := hp.atoms r ((mem_prvs_mergeRound h r).mp hr)
  tabulated := tabulated_mergeRound h
  fits := fits_mergeRound hp.fits h

theorem mergeRepeated (hp : p.Flat) : ∃ q, p.mergeRepeated = .ok q ∧ q.Flat := by
  have hkeep : ∀ a b : Parfactor K, a.Flat → a.mergeRound = .ok (some b) → b.Flat :=
    fun _ _ ha hab => ha.mergeRound hab
  obtain ⟨q, hq⟩ := (errorsIn_settle (I := Flat) (P := fun _ => False) (m := fun q => q.prvs.length)
    (fun a b ha hab => ⟨hkeep a b ha hab, length_prvs_mergeRound hab⟩)
    (fun a ha => ha.tabulated.errorsIn_mergeRound ha.fits) hp le_rfl).exists_ok
  exact ⟨q, hq, (settle_ok (p := Flat) hkeep hp hq).1⟩

theorem ground (hp : p.Flat) {o : Option (Parfactor K)}
    (h : groundSingletons logVars Parfactor.constraints Parfactor.apply p = .ok o) :
    ∀ q, o = some q → q.Flat :=
  (groundSingletons_ok (I := fun o => ∀ q, o = some q → q.Flat) (fun _ _ _ => nofun)
    (fun q x c hq _ _ _ hr => (hq q rfl).apply (keepsPopulations_const x c) hr)
    (fun _ hq => Option.some.inj hq ▸ hp) h).1

/-- **The normal form** is found, and is flat again. -/
theorem normalize (hp : p.Flat) : ∃ o, p.normalize = .ok o ∧ ∀ q, o = some q → q.Flat := by
  obtain ⟨g, hg⟩ := (errorsIn_ground (P := fun _ => False) hp.proper).exists_ok
  cases g with
  | none => exact ⟨none, by rw [Parfactor.normalize, hg]; rfl, nofun⟩
  | some q =>
    have hq := hp.ground hg q rfl
    obtain ⟨r, hr, hflat⟩ := hq.mergeRepeated
    refine ⟨some r, ?_, fun t ht => Option.some.inj ht ▸ hflat⟩
    rw [Parfactor.normalize, hg]
    show (q.simplifyCounting >>= fun s => s.mergeRepeated >>= fun t => .ok (some t)) = .ok (some r)
    rw [hq.simplifyCounting]
    show (q.mergeRepeated >>= fun t => .ok (some t)) = .ok (some r)
    rw [hr]
    rfl

end Flat

end Parfactor

/-! ## components -/

namespace Component

variable {c : Component K} {b : Binding} {l : List (Component K)}

/-- a parfactor over atoms with regular inequalities and a full table -/
def Flat (c : Component K) : Prop := ∃ p, c = .standard p ∧ p.Flat

namespace Flat

theorem proper (hc : c.Flat) : c.Proper := by
  obtain ⟨p, rfl, hp⟩ := hc
  exact hp.proper

theorem squared [Scalar K] (hc : c.Flat) : c.squared.Flat := by
  obtain ⟨p, rfl, hp⟩ := hc
  exact ⟨_, rfl, hp.squared⟩

/-- the normal forms of flat components are found, and are flat again -/
theorem collect (hl : ∀ c ∈ l, c.Flat) : ∃ normal, LiftedElimination.collect normalize l = .ok normal
    ∧ ∀ d ∈ normal.filterMap id, d.Flat := by
  have hnormalize : ∀ c ∈ l, ∃ o, c.normalize = .ok o ∧ ∀ d, o = some d → d.Flat := by
    intro c hc
    obtain ⟨p, rfl, hp⟩ := hl c hc
    obtain ⟨o, ho, hflat⟩ := hp.normalize
    refine ⟨o.map .standard, by rw [Component.normalize, ho]; rfl, fun d hd => ?_⟩
    obtain ⟨q, hq, rfl⟩ := Option.map_eq_some_iff.mp hd
    exact ⟨q, rfl, hflat q hq⟩
  have herrors : ∀ c ∈ l, ErrorsIn (fun _ => False) c.normalize := fun c hc => by
    obtain ⟨o, ho, -⟩ := hnormalize c hc
    rw [ho]
    exact .ok o
  obtain ⟨normal, hn⟩ := (ErrorsIn.collect herrors).exists_ok
  refine ⟨normal, hn, fun d hd => ?_⟩
  obtain ⟨c, hc, hcd⟩ := mem_of_normalized (collect_ok hn) hd
  obtain ⟨o, ho, hflat⟩ := hnormalize c hc
  exact hflat d (Except.ok.inj (ho.symm.trans hcd))

/-- **A split that can be made** leaves flat pieces. -/
theorem perform [Scalar K] (hc : c.Flat) (hb : c.isSplittable b = true) :
    ∃ pieces, c.perform (.split b) = .ok pieces ∧ ∀ d ∈ pieces, d.Flat := by
  obtain ⟨p, rfl, hp⟩ := hc
  obtain ⟨s, hs⟩ := (Parfactor.errorsIn_split (P := fun _ => False) fun hnot =>
    absurd (hnot.symm.trans hb) Bool.false_ne_true).exists_ok
  obtain ⟨hsplits, hfragment, hresidual⟩ := Parfactor.split_ok hs
  have hpieces : ∀ d ∈ [Component.standard s.fragment, .standard s.residual], d.Flat := by
    simp only [List.mem_cons, List.not_mem_nil, or_false]
    rintro d (rfl | rfl)
    · exact ⟨_, rfl, hp.apply hsplits.keepsPopulations hfragment⟩
    · exact ⟨_, rfl, hresidual ▸ hp.residual hsplits⟩
  obtain ⟨normal, hn, hflat⟩ := collect hpieces
  refine ⟨normal.filterMap id, ?_, hflat⟩
  have hsplit : (standard p).pieces (.split b)
      = .ok [Component.standard s.fragment, .standard s.residual] := by
    rw [Component.pieces, Component.split, hs]
    rfl
  rw [Component.perform, hsplit]
  show (LiftedElimination.collect normalize _ >>= fun normal => .ok (normal.filterMap id)) = _
  rw [hn]
  rfl

end Flat

end Component

/-! ## what comparisons ask for -/

section
variable {cs : List (Component K)} {kept : List PrvSet}

/-- **Where nothing is counted, a comparison asks for a split that can be made.** -/
theorem isSplittable_of_asked {o : Occurrence} {r : Extent.Refinement} (hcs : ∀ c ∈ cs, c.Flat)
    (hkept : ∀ t ∈ kept, (∃ a, t.prv = .atom a) ∧ t.constraints.Matched)
    (h : Asked cs kept o r) : ∃ p b, cs[o.component]? = some (.standard p) ∧ r = .split b
      ∧ p.isSplittable b = true := by
  have hatom : ∀ o ∈ occurrences cs, ∃ p a, cs[o.component]? = some (.standard p) ∧ p.Flat
      ∧ .atom a ∈ p.prvs ∧ o.extent = .of (.atom a) p.constraints := by
    intro o ho
    obtain ⟨c, q, hc, hq, hextent⟩ := mem_occurrences ho
    obtain ⟨p, rfl, hp⟩ := hcs c (List.mem_of_getElem? hc)
    obtain ⟨a, rfl⟩ := hp.atoms q (List.mem_of_getElem? hq)
    exact ⟨p, a, hc, hp, List.mem_of_getElem? hq, hextent⟩
  have hrefined : o.extent.RefinedBy r := by
    refine h.refinedBy (fun o ho => ?_) fun t ht => ?_
    · obtain ⟨p, a, -, hp, -, hextent⟩ := hatom o ho
      rw [hextent]
      exact ⟨Extent.matched_of hp.constraints.toMatched nofun, nofun⟩
    · obtain ⟨⟨a, ha⟩, hmatched⟩ := hkept t ht
      rw [Extent.ofSet, ha]
      exact Extent.matched_of hmatched nofun
  obtain ⟨p, a, hc, hp, ha, hextent⟩ := hatom o h.mem
  rw [hextent] at hrefined
  obtain ⟨b, hb, rfl⟩ := hrefined
  have hlog : ∀ x ∈ a.variables, x ∈ p.logVars := fun x hx =>
    Parfactor.mem_logVars.mpr (.inl ⟨_, ha, hx⟩)
  refine ⟨p, b, hc, rfl, ?_⟩
  exact Component.isSplittable_of_loose (c := .standard p) hp.constraints hb
    (hlog _ hb.source_mem) fun y hy => hlog y (hb.var y hy).1

variable [Scalar K]

/-- the next action on flat components is a split that can be made -/
theorem flat_nextAction (hcs : ∀ c ∈ cs, c.Flat)
    (hkept : ∀ t ∈ kept, (∃ a, t.prv = .atom a) ∧ t.constraints.Matched) :
    nextAction cs kept = .ok none ∨ ∃ i c b, cs[i]? = some c ∧ c.isSplittable b = true
      ∧ nextAction cs kept = .ok (some (i, .split b)) := by
  rcases nextAction_cases cs kept with ⟨i, p, b, hc, hb, heq⟩ | ⟨o, r, hasked, heq⟩ | heq
  · obtain ⟨_, hstandard, hp⟩ := hcs _ (List.mem_of_getElem? hc)
    cases hstandard
    exact .inr ⟨i, _, b, hc, Parfactor.isSplittable_of_violation? hp.constraints hb, heq⟩
  · obtain ⟨p, b, hc, rfl, hb⟩ := isSplittable_of_asked hcs hkept hasked
    refine .inr ⟨o.component, _, b, hc, hb, ?_⟩
    rw [heq, Occurrence.action, hc]
    rfl
  · exact .inl heq

/-- **A round of refinement** of flat components is made, and leaves flat components. -/
theorem flat_refineRound (hcs : ∀ c ∈ cs, c.Flat)
    (hkept : ∀ t ∈ kept, (∃ a, t.prv = .atom a) ∧ t.constraints.Matched) :
    ∃ next, refineRound kept cs = .ok next ∧ ∀ ds, next = some ds → ∀ d ∈ ds, d.Flat := by
  unfold refineRound
  rcases flat_nextAction hcs hkept with heq | ⟨i, c, b, hc, hb, heq⟩ <;> rw [heq]
  · exact ⟨none, rfl, nofun⟩
  · have hflat := hcs c (List.mem_of_getElem? hc)
    obtain ⟨pieces, hp, hpieces⟩ := hflat.perform hb
    refine ⟨some (pieces.foldl Distribution.pushFolded (cs.eraseIdx i)), ?_, fun ds hds => ?_⟩
    · dsimp only [bind, Except.bind]
      rw [hc]
      dsimp only
      rw [hp]
      rfl
    · cases hds
      exact forall_mem_foldl_pushFolded (fun _ hd => hd.squared) hpieces
        fun d hd => hcs d (List.mem_of_mem_eraseIdx hd)

namespace Marginal

variable {m : Marginal K}

/-- parfactors over atoms as they are accepted, and kept sets of atoms, with inequalities between
variables of one population that are written with the smaller variable first -/
structure Plain (m : Marginal K) : Prop where
  components : ∀ c ∈ m.distribution.toList, ∃ p, c = .standard p ∧ p.Accepted
    ∧ (∀ q ∈ p.prvs, ∃ a, q = .atom a) ∧ p.constraints.Matched
  kept : ∀ t ∈ m.kept, (∃ a, t.prv = .atom a) ∧ t.constraints.Matched

/-- the lists of components that shattering goes through -/
inductive Visits (m : Marginal K) : List (Component K) → Prop where
  | start {cs : List (Component K)} (h : m.normalized = .ok cs) : m.Visits cs
  | next {cs ds : List (Component K)} (hcs : m.Visits cs)
    (h : refineRound m.kept cs = .ok (some ds)) : m.Visits ds

theorem Plain.flat (hm : m.Plain) : ∀ c ∈ m.distribution.toList, c.Flat := fun c hc => by
  obtain ⟨p, rfl, hp, hatoms, hmatched⟩ := hm.components c hc
  exact ⟨p, rfl, ⟨hmatched, hp.satisfiable⟩, hatoms, hp.tabulated, hp.fits⟩

theorem Plain.normalized (hm : m.Plain) :
    ∃ cs, m.normalized = .ok cs ∧ ∀ c ∈ cs, c.Flat := by
  obtain ⟨normal, hn, hflat⟩ := Component.Flat.collect hm.flat
  refine ⟨(normal.filterMap id).foldl Distribution.pushFolded [], ?_, ?_⟩
  · rw [Marginal.normalized, hn]
    rfl
  · exact forall_mem_foldl_pushFolded (fun _ hd => hd.squared) hflat
      fun d hd => absurd hd List.not_mem_nil

/-- all components that shattering goes through are flat -/
theorem Visits.flat (hm : m.Plain) (h : m.Visits cs) : ∀ c ∈ cs, c.Flat := by
  induction h with
  | start h =>
    obtain ⟨cs, hcs, hflat⟩ := hm.normalized
    exact Except.ok.inj (hcs.symm.trans h) ▸ hflat
  | next _ h ih =>
    obtain ⟨next, hnext, hflat⟩ := flat_refineRound ih hm.kept
    exact hflat _ (Except.ok.inj (hnext.symm.trans h))

theorem Plain.exists_shatter (hm : m.Plain) : ∃ s, m.shatter = .ok s := by
  obtain ⟨cs, hcs, hflat⟩ := hm.normalized
  obtain ⟨ds, hds⟩ := (errorsIn_settle (I := fun cs => ∀ c ∈ cs, c.Flat) (P := fun _ => False)
    (m := refinementBound) (fun a b ha hab => by
      obtain ⟨next, hnext, hflat⟩ := flat_refineRound ha hm.kept
      exact ⟨hflat b (Except.ok.inj (hnext.symm.trans hab)),
        (refinementBound_refineRound (fun c hc => (ha c hc).proper) hab).2⟩)
    (fun a ha => by
      obtain ⟨next, hnext, -⟩ := flat_refineRound ha hm.kept
      rw [hnext]
      exact .ok next)
    hflat le_rfl).exists_ok
  refine ⟨m.withDistribution (.ofList ds), ?_⟩
  rw [shatter, hcs]
  show (settle (refineRound m.kept) (refinementBound cs) cs >>= fun cs => _) = _
  rw [hds]
  rfl

/-- **Shattering succeeds where nothing is counted**: parfactors over atoms that are accepted, and
kept sets of atoms, with inequalities between variables of one population.  In every list of
components that it goes through, the split that the normal form of some constraints needs, and
whatever a comparison asks for, is a split that can be made. -/
theorem shatter_plain (hm : m.Plain) : (∃ s, m.shatter = .ok s) ∧ ∀ cs, m.Visits cs →
    (∀ p, .standard p ∈ cs → ∀ b, p.violation? = some b → p.isSplittable b = true)
      ∧ ∀ o r, Asked cs m.kept o r → ∃ p b, cs[o.component]? = some (.standard p) ∧ r = .split b
        ∧ p.isSplittable b = true := by
  refine ⟨hm.exists_shatter, fun cs hcs => ⟨fun p hp b hb => ?_, fun o r hasked => ?_⟩⟩
  · obtain ⟨_, heq, hflat⟩ := hcs.flat hm _ hp
    cases heq
    exact Parfactor.isSplittable_of_violation? hflat.constraints hb
  · exact isSplittable_of_asked (hcs.flat hm) hm.kept hasked

end Marginal

end

/-! ## suspects -/

open scoped ExactScalar

namespace Epidemic

/-- an inequality with the larger variable first is not found, and the split is asked for again -/
example : let m : Marginal Nat :=
      .make [.standard ⟨∅, [.atom (infects (.var person) (.var other))], ⟨#[2, 3]⟩⟩,
        .standard ⟨.ofList [⟨other, .var person⟩],
          [.atom (infects (.var person) (.var other))], ⟨#[4, 1]⟩⟩] []
    m.shatter.isOk = false := by
  decide +kernel

/-- who is sick can infect others, and something is known about `x1`; it is asked who is sick, apart
from `x2` -/
def suspects : Marginal Nat :=
  .make [.standard ⟨.ofList [.ordered person (.var other)],
      [.atom (sick (.var person)), .atom (infects (.var person) (.var other))], ⟨#[4, 1, 2, 3]⟩⟩,
    .standard ⟨∅, [.atom (sick (.const ⟨"x1"⟩))], ⟨#[1, 5]⟩⟩]
    [⟨.atom (sick (.var person)), .ofList [.ordered person (.const ⟨"x2"⟩)]⟩]

theorem matched_person {t : Term} (h : ∀ y, t = .var y → y.population = people) :
    ConstraintSet.Matched (.ofList [.ordered person t]) := by
  constructor <;> intro c hc <;> obtain rfl := List.mem_singleton.mp (SortedSet.mem_ofList.mp hc)
  · exact Constraint.ordered_ordered person t
  · exact Constraint.isMatched_ordered h

theorem plain_suspects : suspects.Plain where
  components := by
    refine Distribution.forall_mem_ofList (P := fun c : Component Nat => ∃ p, c = .standard p
      ∧ p.Accepted ∧ (∀ q ∈ p.prvs, ∃ a, q = .atom a) ∧ p.constraints.Matched) ?_ ?_
    · rintro _ ⟨p, rfl, hp, hatoms, hmatched⟩
      exact ⟨p.squared, rfl, hp.squared, hatoms, hmatched⟩
    · simp only [List.mem_cons, List.not_mem_nil, or_false]
      rintro c (rfl | rfl)
      · refine ⟨_, rfl, ⟨rfl, fun f hf => by simp at hf, by decide⟩, fun q hq => ?_, ?_⟩
        · simp only [List.mem_cons, List.not_mem_nil, or_false] at hq
          rcases hq with rfl | rfl <;> exact ⟨_, rfl⟩
        · exact matched_person fun y hy => Term.var.inj hy ▸ rfl
      · exact ⟨_, rfl, ⟨rfl, fun f hf => by simp at hf, by decide⟩,
          fun q hq => ⟨_, List.mem_singleton.mp hq⟩, ⟨nofun, nofun⟩⟩
  kept t ht := by
    rw [suspects, Marginal.make, Marginal.distinct, List.mem_eraseDups, List.mem_singleton] at ht
    rw [ht]
    exact ⟨⟨_, rfl⟩, matched_person nofun⟩

/-- shattering splits the parfactor of the contacts, and never fails -/
theorem shatter_plain_suspects : suspects.Plain ∧ suspects.isShattered = .ok false
    ∧ (∃ s, suspects.shatter = .ok s) ∧ ∀ cs, suspects.Visits cs →
      (∀ p, .standard p ∈ cs → ∀ b, p.violation? = some b → p.isSplittable b = true)
        ∧ ∀ o r, Asked cs suspects.kept o r → ∃ p b, cs[o.component]? = some (.standard p)
          ∧ r = .split b ∧ p.isSplittable b = true :=
  ⟨plain_suspects, by decide +kernel, suspects.shatter_plain plain_suspects⟩

end Epidemic

end LiftedElimination
