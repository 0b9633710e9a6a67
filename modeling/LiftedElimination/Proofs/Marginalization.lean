import LiftedElimination.Proofs.Countable

/-!
# Marginalization

A random variable whose atom mentions every variable of the random variables owns different things
under different groundings.  Summing it out is the sum over all assignments of what it stands for, as
long as the groundings are spread evenly, whether or not there are any.

* `disjoint_owned`           different groundings, different ground random variables;
* `card_above_single`, `card_above_neighbour`   the groundings of one variable more;
* `exists_sumOut_iff`        when summing out succeeds;
* `sumOut_marginalizes`      what summing out comes to.
-/

namespace LiftedElimination

open Finset

variable {K : Type}

/-- the groundings of one variable more, by the individuals that are left for that variable -/
theorem ConstraintSet.card_above_single {cs : ConstraintSet} {all vars : List LogVar} {x : LogVar}
    {δ : Valuation} {s : Finset Constant} (hx : x ∉ vars) (hall : ∀ y, y ∈ all ↔ y = x ∨ y ∈ vars)
    (hδ : δ ∈ cs.solutions vars)
    (hs : ∀ c, c ∈ s ↔ Valuation.Solves (Function.update δ x c) cs all) :
    (cs.above all vars δ).card = s.card := by
  have hupdate : ∀ γ ∈ cs.above all vars δ, Function.update δ x (γ x) = γ := by
    intro γ hγ
    obtain ⟨hγ, heq⟩ := mem_above.mp hγ
    funext y
    by_cases hyx : y = x
    · rw [hyx, Function.update_self]
    · rw [Function.update_of_ne hyx]
      by_cases hy : y ∈ vars
      · exact (heq y hy).symm
      · rw [(mem_solutions.mp hδ).2 y hy,
          (mem_solutions.mp hγ).2 y fun h => ((hall y).mp h).elim hyx hy]
  refine card_nbij' (fun γ => γ x) (fun c => Function.update δ x c) (fun γ hγ => ?_)
    (fun c hc => ?_) hupdate fun c _ => Function.update_self _ _ _
  · refine (hs _).mpr ?_
    rw [hupdate γ hγ]
    exact solves_of_mem (mem_above.mp hγ).1
  · have hout : ∀ y ∉ all, Function.update δ x c y = default := fun y hy => by
      rw [Function.update_of_ne fun h => hy ((hall y).mpr (.inl h))]
      exact (mem_solutions.mp hδ).2 y fun h => hy ((hall y).mpr (.inr h))
    refine mem_above.mpr ⟨mem_solutions.mpr ⟨(hs c).mp hc, hout⟩, fun y hy => ?_⟩
    exact Function.update_of_ne (fun h : y = x => hx (h ▸ hy)) _ _

/-- a variable that only one other variable is separated from has one individual fewer left -/
theorem ConstraintSet.card_above_neighbour {cs : ConstraintSet} {all vars : List LogVar}
    {x y : LogVar} {δ : Valuation} (hx : x ∉ vars) (hall : ∀ z, z ∈ all ↔ z = x ∨ z ∈ vars)
    (hy : y ∈ vars) (hpopulation : y.population = x.population)
    (hmem : .ordered x (.var y) ∈ cs)
    (honly : ∀ c ∈ cs, x ∈ c.variables → c = .ordered x (.var y)) (hδ : δ ∈ cs.solutions vars) :
    (cs.above all vars δ).card = x.population.toFinset.card - 1 := by
  have hsolves := solves_of_mem hδ
  have hsame : ∀ c, ∀ z ∈ vars, Function.update δ x c z = δ z := fun c z hz =>
    Function.update_of_ne (fun h : z = x => hx (h ▸ hz)) _ _
  have hdiffers : ∀ c, (Constraint.ordered x (.var y)).Holds (Function.update δ x c)
      ↔ c ≠ δ y := fun c => by
    rw [Constraint.holds_ordered, Term.eval_var, Function.update_self, hsame c y hy]
  have hleft : ∀ c, c ∈ x.population.toFinset.erase (δ y)
      ↔ Valuation.Solves (Function.update δ x c) cs all := by
    intro c
    rw [mem_erase, Population.mem_toFinset]
    constructor
    · rintro ⟨hc, hpop⟩
      refine ⟨fun z hz => ?_, fun d hd hvars => ?_⟩
      · rcases (hall z).mp hz with rfl | hz
        · rwa [Function.update_self]
        · rw [hsame c z hz]
          exact hsolves.mem z hz
      · by_cases hxd : x ∈ d.variables
        · rw [honly d hd hxd]
          exact (hdiffers c).mpr hc
        · have hold : ∀ z ∈ d.variables, z ∈ vars := fun z hz =>
            ((hall z).mp (hvars z hz)).resolve_left fun h => hxd (h ▸ hz)
          refine (Constraint.holds_congr fun z hz => hsame c z (hold z hz)).mpr ?_
          exact hsolves.holds d hd hold
    · intro hupdate
      have hpop := hupdate.mem x ((hall x).mpr (.inl rfl))
      rw [Function.update_self] at hpop
      refine ⟨(hdiffers c).mp (hupdate.holds _ hmem fun z hz => ?_), hpop⟩
      rcases Constraint.mem_variables_ordered.mp hz with rfl | hz
      · exact (hall z).mpr (.inl rfl)
      · cases hz
        exact (hall y).mpr (.inr hy)
  rw [card_above_single hx hall hδ hleft, card_erase_of_mem]
  rw [Population.mem_toFinset, ← hpopulation]
  exact hsolves.mem y hy

namespace Parfactor

variable {p r : Parfactor K} {q : Prv}

/-- groundings that differ in what the atom mentions own different ground random variables -/
theorem disjoint_owned (hp : p.Proper) (hq : q ∈ p.prvs)
    (hatom : ∀ x ∈ p.prvVars, x ∈ q.base.variables) {γ δ : Valuation} (hγ : γ ∈ p.prvSolutions)
    (hδ : δ ∈ p.prvSolutions) (hne : γ ≠ δ) : Disjoint (q.owned γ) (q.owned δ) := by
  refine disjoint_left.mpr fun v hvγ hvδ => hne ?_
  refine ConstraintSet.eq_of_mem_solutions hγ hδ fun x hx => ?_
  refine Prv.eq_of_mem_owned (hp.valid q hq) ?_ (hatom x hx) hvγ hvδ
  cases q with
  | atom a => exact hatom x hx
  | count f =>
    have hbound : x ≠ f.bound := fun h => hp.bound f hq (h ▸ mem_logVars_of_prvVars hx)
    exact CountingFormula.mem_freeVars.mpr (.inl ⟨hatom x hx, hbound⟩)

section
variable [Scalar K]

/-- **When summing out succeeds**: exactly if the table of what stays fits.  That table is no larger
than the old one, unless the random variable has no values. -/
theorem exists_sumOut_iff (hp : p.Accepted) (hone : p.prvs.count q = 1) :
    (∃ r, p.sumOut q = .ok r)
      ↔ (q.rangeSize = 0 → Index.Fits ((p.prvs.erase q).map Prv.rangeSize)) := by
  obtain ⟨i, hi, herase, -, heq⟩ := sumOut_eq_rebuild hone
  rw [heq]
  refine (exists_rebuild_iff fun _ digits hd =>
    (hp.tabulated.errorsIn_sumFrom hi (herase ▸ hd)).bind fun _ _ => .ok _).trans ?_
  refine ⟨fun h _ => h, fun h => ?_⟩
  rcases Nat.eq_zero_or_pos q.rangeSize with hzero | hpos
  · exact h hzero
  · rw [herase, ← List.eraseIdx_map]
    exact hp.fits.eraseIdx (getElem?_sizes hi) hpos

end

/-- **Summing out marginalizes**: let the builder have accepted a parfactor, and `q` occur once among
its random variables.  Its atom mentions every variable of the random variables, no other one stands
for a ground random variable of `q`, a formula counts what its domain size says, every grounding of
the random variables extends to `b` of all variables, and every grounding of what stays to `a` of the
random variables.  Then `q` is summed out, unless it has no values and the rest does not fit into a
table.  If the groundings can be counted, the result means the sum of the meanings over all
assignments of what `q` stands for, in every legal world of the rest. -/
theorem sumOut_marginalizes [ExactScalar K] {b a : Nat} (hp : p.Accepted)
    (hordered : p.constraints.IsOrdered) (hone : p.prvs.count q = 1)
    (hatom : ∀ x ∈ p.prvVars, x ∈ q.base.variables)
    (hapart : ∀ s ∈ p.prvs, s ≠ q → Disjoint (p.denoted s) (p.denoted q))
    (hcounts : ∀ γ ∈ p.prvSolutions, q.Accurate γ)
    (hb : ∀ γ ∈ p.prvSolutions, (p.constraints.above p.logVars p.prvVars γ).card = b)
    (ha : ∀ δ ∈ p.constraints.solutions (p.staying q),
      (p.constraints.above p.prvVars (p.staying q) δ).card = a) :
    ((∃ r, p.sumOut q = .ok r)
        ↔ (q.rangeSize = 0 → Index.Fits ((p.prvs.erase q).map Prv.rangeSize)))
      ∧ ∀ r, p.sumOut q = .ok r →
        (∀ vars ∈ [p.logVars, p.prvVars, p.staying q],
          (p.constraints.solutions vars).card ≤ Cost.limit) →
        (∀ δ ∈ r.solutions, ∀ s ∈ r.prvs, s.Accurate δ) →
        ∀ w : World, w.Legal r.scope →
          r.meaning w = ∑ u ∈ w.assignments (p.denoted q), p.meaning u := by
  refine ⟨exists_sumOut_iff hp hone, fun r hr hfew haccurate w hw => ?_⟩
  have hmem : q ∈ p.prvs := List.count_pos_iff.mp (by omega)
  have hcollapses : p.Collapses q b a :=
    ⟨fun _ hγ _ hδ hne => disjoint_owned hp.proper hmem hatom hγ hδ hne, hapart, hb, ha, hordered,
      hfew⟩
  obtain ⟨_, -, -, -, hrebuild⟩ := sumOut_ok hr
  rw [(parts_sumOut hr).2] at haccurate
  have hread := readable_rebuild hrebuild
    (fun s hs => hp.proper.valid s (List.mem_of_mem_erase hs)) haccurate
  exact hcollapses.meaning hp.proper.valid hp.satisfiable hcounts hr hread hw

end Parfactor

/-! ## who infects somebody -/

open scoped ExactScalar

namespace Epidemic

def transmission : Prv := .atom (infects (.var person) (.var other))

/-- somebody is sick by one of the others, once for everybody who visits -/
def infection : Parfactor Nat :=
  ⟨.ofList [.ordered person (.var other), .ordered visitor (.var other)],
    [transmission, .atom (sick (.var other))], ⟨#[3, 1, 2, 5]⟩⟩

theorem accepted_infection : infection.Accepted := by
  refine ⟨rfl, fun f hf => ?_, by decide⟩
  simp [infection, transmission] at hf

theorem prvVars_infection : infection.prvVars = [person, other] := by decide

theorem staying_infection : infection.staying transmission = [other] := by decide

theorem eq_of_mem_infection {s : Prv} (hs : s ∈ infection.prvs) (hne : s ≠ transmission) :
    s = .atom (sick (.var other)) := by
  simpa [infection, hne] using hs

theorem apart_infection {s : Prv} (hs : s ∈ infection.prvs) (hne : s ≠ transmission) :
    Disjoint (infection.denoted s) (infection.denoted transmission) := by
  obtain rfl := eq_of_mem_infection hs hne
  refine disjoint_left.mpr fun v hv hv' => ?_
  obtain ⟨γ, -, hv⟩ := mem_biUnion.mp hv
  obtain ⟨δ, -, hv'⟩ := mem_biUnion.mp hv'
  have heq := (mem_singleton.mp hv).symm.trans (mem_singleton.mp hv')
  have hname : "sick" = "infects" := congrArg (fun v => v.atom.functor) heq
  exact absurd hname (by decide)

theorem few_infection {vars : List LogVar}
    (hvars : vars ∈ [infection.logVars, infection.prvVars, infection.staying transmission]) :
    (infection.constraints.solutions vars).card ≤ Cost.limit := by
  have hsearch : ∀ vars ∈ [infection.logVars, infection.prvVars, infection.staying transmission],
      vars.Nodup
        ∧ (Slot.completions (infection.constraints.slots vars) []).length ≤ Cost.limit := by
    decide
  obtain ⟨hnd, hle⟩ := hsearch vars hvars
  rwa [ConstraintSet.length_completions_eq accepted_infection.satisfiable hnd] at hle

end Epidemic

/-- it is summed out who infects somebody -/
theorem Epidemic.sumOut_marginalizes_infection : ∃ r, infection.sumOut transmission = .ok r
    ∧ ∀ w : World, w.Legal r.scope →
      r.meaning w = ∑ u ∈ w.assignments (infection.denoted transmission), infection.meaning u := by
  have hordered : ∀ c ∈ infection.constraints, Constraint.ordered c.first c.second = c := by
    decide
  have hlogVars : infection.logVars = [person, other, visitor] := by decide
  have hvisits : ∀ γ ∈ infection.prvSolutions,
      (infection.constraints.above infection.logVars infection.prvVars γ).card = 2 := by
    rw [Parfactor.prvSolutions, hlogVars, prvVars_infection]
    exact fun γ hγ => ConstraintSet.card_above_neighbour (x := visitor) (y := other)
      (by decide) (fun z => by simp; tauto) (by decide) rfl (by decide)
      (by decide) hγ
  have hothers : ∀ δ ∈ infection.constraints.solutions (infection.staying transmission),
      (infection.constraints.above infection.prvVars (infection.staying transmission) δ).card = 2 := by
    rw [prvVars_infection, staying_infection]
    exact fun δ hδ => ConstraintSet.card_above_neighbour (x := person) (y := other)
      (by decide) (fun z => by simp) (by decide) rfl (by decide)
      (by decide) hδ
  obtain ⟨hsucceeds, hmeaning⟩ := Parfactor.sumOut_marginalizes accepted_infection hordered
    (by decide) (by decide) (fun _ => apart_infection) (fun _ _ => trivial) hvisits
    hothers
  have hvalues : transmission.rangeSize ≠ 0 := by decide
  obtain ⟨r, hr⟩ := hsucceeds.mpr fun h => absurd h hvalues
  refine ⟨r, hr, hmeaning r hr (fun _ => few_infection) fun δ _ s hs => ?_⟩
  rw [(Parfactor.parts_sumOut hr).2] at hs
  have hne : s ≠ transmission := fun h => absurd (h ▸ hs) (by decide)
  obtain rfl := eq_of_mem_infection (List.mem_of_mem_erase hs) hne
  trivial

end LiftedElimination
