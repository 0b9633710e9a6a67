import LiftedElimination.Proofs.Valuation
import LiftedElimination.Grounding

/-!
# Solutions of constraints

`cs.solutions vars` is the finite set of the valuations that ground `vars` such that every
constraint of `cs` on these variables holds; constraints that mention other variables are ignored,
and the other variables are left at the default individual.

* `length_completions`      the search lists as many completions as there are solutions;
* `satisfiable_of_solves`, `exists_solves`   the search for one solution is complete and sound.
-/

namespace LiftedElimination

open Finset

/-! ## solutions -/

namespace Population

def toFinset (p : Population) : Finset Constant := p.individuals.toFinset

@[simp] theorem mem_toFinset {p : Population} {c : Constant} : c ∈ p.toFinset ↔ c ∈ p :=
  List.mem_toFinset

theorem nodup_eraseDups {α : Type} [DecidableEq α] : ∀ l : List α, l.eraseDups.Nodup
  | [] => List.nodup_nil
  | a :: l => by
    rw [List.eraseDups_cons, List.nodup_cons, List.mem_eraseDups]
    exact ⟨by simp, nodup_eraseDups _⟩
termination_by l => l.length
decreasing_by exact Nat.lt_succ_of_le (List.length_filter_le _ l)

theorem nodup_domain (x : LogVar) (cs : ConstraintSet) : (x.domain cs).individuals.Nodup := by
  rw [LogVar.domain, individuals_ofList]
  exact nodup_eraseDups _

end Population

namespace Valuation

/-- `γ` on `vars`, the default individual elsewhere -/
def restrict (γ : Valuation) (vars : List LogVar) : Valuation :=
  fun x => if x ∈ vars then γ x else default

theorem restrict_of_mem {γ : Valuation} {vars : List LogVar} {x : LogVar} (h : x ∈ vars) :
    γ.restrict vars x = γ x := if_pos h

theorem restrict_of_notMem {γ : Valuation} {vars : List LogVar} {x : LogVar} (h : x ∉ vars) :
    γ.restrict vars x = default := if_neg h

/-- `γ` grounds `vars`, and the constraints on `vars` hold -/
structure Solves (γ : Valuation) (cs : ConstraintSet) (vars : List LogVar) : Prop where
  mem : ∀ x ∈ vars, γ x ∈ x.population
  holds : ∀ c ∈ cs, (∀ x ∈ c.variables, x ∈ vars) → c.Holds γ

variable {γ δ : Valuation} {cs : ConstraintSet} {vars ws : List LogVar}

theorem Solves.congr (h : γ.Solves cs vars) (hδ : ∀ x ∈ vars, γ x = δ x) : δ.Solves cs vars where
  mem x hx := hδ x hx ▸ h.mem x hx
  holds c hc hv := (Constraint.holds_congr fun x hx => hδ x (hv x hx)).mp (h.holds c hc hv)

theorem Solves.mono (h : γ.Solves cs vars) (hw : ∀ x ∈ ws, x ∈ vars) : γ.Solves cs ws where
  mem x hx := h.mem x (hw x hx)
  holds c hc hv := h.holds c hc fun x hx => hw x (hv x hx)

theorem Solves.restrict (h : γ.Solves cs vars) : (γ.restrict vars).Solves cs vars :=
  h.congr fun _ hx => (restrict_of_mem hx).symm

theorem solves_iff_holds (h : ∀ x ∈ cs.variables, x ∈ vars) :
    γ.Solves cs vars ↔ (∀ x ∈ vars, γ x ∈ x.population) ∧ cs.Holds γ :=
  ⟨fun hs => ⟨hs.mem, fun c hc => hs.holds c hc fun x hx =>
      h x (ConstraintSet.mem_variables.mpr ⟨c, hc, hx⟩)⟩,
    fun hs => ⟨hs.1, fun c hc _ => hs.2 c hc⟩⟩

theorem solves_restrictTo (h : ∀ x ∈ ws, x ∈ vars) :
    γ.Solves (cs.restrictTo vars) ws ↔ γ.Solves cs ws :=
  ⟨fun hs => ⟨hs.mem, fun c hc hv => hs.holds c
      (ConstraintSet.mem_restrictTo.mpr ⟨hc, fun x hx => h x (hv x hx)⟩) hv⟩,
    fun hs => ⟨hs.mem, fun c hc hv => hs.holds c (ConstraintSet.mem_restrictTo.mp hc).1 hv⟩⟩

end Valuation

namespace ConstraintSet

/-- the groundings of `vars` that satisfy the constraints on `vars` -/
def solutions (cs : ConstraintSet) (vars : List LogVar) : Finset Valuation :=
  (overrides vars.toFinset (fun x => x.population.toFinset) fun _ => default).filter
    fun γ => (cs.restrictTo vars).Holds γ

theorem mem_solutions {cs : ConstraintSet} {vars : List LogVar} {γ : Valuation} :
    γ ∈ cs.solutions vars ↔ γ.Solves cs vars ∧ ∀ x ∉ vars, γ x = default := by
  rw [solutions, mem_filter, mem_overrides]
  simp only [List.mem_toFinset, Population.mem_toFinset]
  constructor
  · rintro ⟨⟨hm, hd⟩, hc⟩
    exact ⟨⟨hm, fun c h hv => hc c (mem_restrictTo.mpr ⟨h, hv⟩)⟩, hd⟩
  · rintro ⟨hs, hd⟩
    exact ⟨⟨hs.mem, hd⟩, fun c h => hs.holds c (mem_restrictTo.mp h).1 (mem_restrictTo.mp h).2⟩

variable {cs ds : ConstraintSet} {vars ws : List LogVar} {γ δ : Valuation}

theorem solves_of_mem (h : γ ∈ cs.solutions vars) : γ.Solves cs vars := (mem_solutions.mp h).1

theorem restrict_mem_solutions (h : γ.Solves cs vars) : γ.restrict vars ∈ cs.solutions vars :=
  mem_solutions.mpr ⟨h.restrict, fun _ hx => Valuation.restrict_of_notMem hx⟩

theorem solutions_nonempty : (cs.solutions vars).Nonempty ↔ ∃ γ : Valuation, γ.Solves cs vars :=
  ⟨fun ⟨γ, h⟩ => ⟨γ, solves_of_mem h⟩, fun ⟨_, h⟩ => ⟨_, restrict_mem_solutions h⟩⟩

theorem eq_of_mem_solutions (hγ : γ ∈ cs.solutions vars) (hδ : δ ∈ ds.solutions vars)
    (h : ∀ x ∈ vars, γ x = δ x) : γ = δ := by
  funext x
  by_cases hx : x ∈ vars
  · exact h x hx
  · rw [(mem_solutions.mp hγ).2 x hx, (mem_solutions.mp hδ).2 x hx]

theorem solutions_congr (hv : ∀ x, x ∈ vars ↔ x ∈ ws) : cs.solutions vars = cs.solutions ws := by
  ext γ
  rw [mem_solutions, mem_solutions]
  simp only [hv]
  refine and_congr_left fun _ => ⟨fun h => ⟨?_, ?_⟩, fun h => ⟨?_, ?_⟩⟩
  · exact fun x hx => h.mem x ((hv x).mpr hx)
  · exact fun c hc hx => h.holds c hc fun x hxc => (hv x).mpr (hx x hxc)
  · exact fun x hx => h.mem x ((hv x).mp hx)
  · exact fun c hc hx => h.holds c hc fun x hxc => (hv x).mp (hx x hxc)

theorem solutions_restrictTo (h : ∀ x ∈ ws, x ∈ vars) :
    (cs.restrictTo vars).solutions ws = cs.solutions ws := by
  ext γ
  rw [mem_solutions, mem_solutions, Valuation.solves_restrictTo h]

end ConstraintSet

/-! ## the search -/

namespace Choices

/-- the individuals chosen, as a valuation -/
def valuation (chosen : Choices) : Valuation := fun x => (chosen.get? x).getD default

theorem get?_eq_some_iff {chosen : Choices} {x : LogVar} :
    (∃ c, chosen.get? x = some c) ↔ x ∈ chosen.map Prod.fst := by
  rw [get?, List.mem_map]
  constructor
  · rintro ⟨c, hc⟩
    obtain ⟨p, hp, -⟩ := Option.map_eq_some_iff.mp hc
    exact ⟨p, List.mem_of_find?_eq_some hp, by simpa using List.find?_some hp⟩
  · rintro ⟨p, hp, rfl⟩
    cases hf : chosen.find? (·.1 = p.1) with
    | none =>
      have := List.find?_eq_none.mp hf p hp
      simp at this
    | some q => exact ⟨q.2, rfl⟩

theorem get?_eq {chosen : Choices} {x : LogVar} (h : x ∈ chosen.map Prod.fst) :
    chosen.get? x = some (chosen.valuation x) := by
  obtain ⟨c, hc⟩ := get?_eq_some_iff.mpr h
  rw [valuation, hc]
  rfl

theorem get?_append_self {chosen : Choices} {x : LogVar} (h : x ∉ chosen.map Prod.fst)
    (c : Constant) : get? (chosen ++ [(x, c)]) x = some c := by
  have hnone : chosen.find? (·.1 = x) = none := List.find?_eq_none.mpr fun p hp hpx =>
    h (List.mem_map.mpr ⟨p, hp, by simpa using hpx⟩)
  rw [get?, List.find?_append, hnone]
  simp

theorem get?_append_of_ne {chosen : Choices} {x y : LogVar} (h : y ≠ x) (c : Constant) :
    get? (chosen ++ [(x, c)]) y = chosen.get? y := by
  rw [get?, List.find?_append, get?]
  have hone : List.find? (fun p : LogVar × Constant => decide (p.1 = y)) [(x, c)] = none :=
    List.find?_eq_none.mpr fun p hp => by
      rw [List.mem_singleton.mp hp]
      simpa using h.symm
  rw [hone, Option.or_none]

theorem valuation_append {chosen : Choices} {x : LogVar} (h : x ∉ chosen.map Prod.fst)
    (c : Constant) : valuation (chosen ++ [(x, c)]) = Function.update chosen.valuation x c := by
  funext y
  by_cases hy : y = x
  · subst hy
    rw [valuation, get?_append_self h, Function.update_self]
    rfl
  · rw [valuation, get?_append_of_ne hy, Function.update_of_ne hy]
    rfl

end Choices

namespace ConstraintSet

/-- the constraint links a variable of `vars` to variables of `done` and `vars` -/
def Open (done vars : List LogVar) (c : Constraint) : Prop :=
  c.isContradiction = false ∧ (∀ x ∈ c.variables, x ∈ done ∨ x ∈ vars) ∧ ∃ x ∈ c.variables, x ∈ vars

instance (done vars : List LogVar) (c : Constraint) : Decidable (Open done vars c) :=
  inferInstanceAs (Decidable (_ ∧ _ ∧ _))

/-- a constraint that links the next variable only to those chosen before -/
theorem Open.of_next {done xs : List LogVar} {x : LogVar} {c : Constraint} (h : Open done [x] c) :
    Open done (x :: xs) c := by
  obtain ⟨hcon, hv, y, hy, hyx⟩ := h
  have hhead : ∀ z ∈ [x], z ∈ x :: xs := fun z hz =>
    List.mem_cons.mpr (.inl (List.mem_singleton.mp hz))
  exact ⟨hcon, fun z hz => (hv z hz).imp_right (hhead z), y, hy, hhead y hyx⟩

/-- a constraint that is looked at once the next variable is chosen, too -/
theorem Open.of_later {done xs : List LogVar} {x : LogVar} {c : Constraint}
    (h : Open (done ++ [x]) xs c) : Open done (x :: xs) c := by
  obtain ⟨hcon, hv, y, hy, hyx⟩ := h
  refine ⟨hcon, fun z hz => ?_, y, hy, List.mem_cons_of_mem _ hyx⟩
  rcases hv z hz with h | h
  · rcases List.mem_append.mp h with h | h
    · exact .inl h
    · exact .inr (List.mem_cons.mpr (.inl (List.mem_singleton.mp h)))
  · exact .inr (List.mem_cons_of_mem _ h)

/-- a constraint is looked at for the next variable or later -/
theorem Open.next_or_later {done xs : List LogVar} {x : LogVar} {c : Constraint}
    (h : Open done (x :: xs) c) : Open done [x] c ∨ Open (done ++ [x]) xs c := by
  obtain ⟨hcon, hv, y, hy, hyx⟩ := h
  by_cases hlater : ∃ z ∈ c.variables, z ∈ xs
  · refine .inr ⟨hcon, fun z hz => ?_, hlater⟩
    rcases hv z hz with h | h
    · exact .inl (List.mem_append.mpr (.inl h))
    · rcases List.mem_cons.mp h with rfl | h
      · exact .inl (List.mem_append.mpr (.inr (List.mem_singleton.mpr rfl)))
      · exact .inr h
  · have hnow : ∀ z ∈ c.variables, z ∈ x :: xs → z ∈ [x] := fun z hz h =>
      List.mem_singleton.mpr ((List.mem_cons.mp h).resolve_right fun hzs => hlater ⟨z, hz, hzs⟩)
    exact .inl ⟨hcon, fun z hz => (hv z hz).imp_right (hnow z hz), y, hy, hnow y hy hyx⟩

/-- an excluded individual matters when its variable is chosen -/
theorem open_of_excluded? {c : Constraint} {x : LogVar} {a : Constant}
    (h : c.excluded? x = some a) (done : List LogVar) : Open done [x] c := by
  obtain ⟨hf, hs⟩ := Constraint.excluded?_eq_some.mp h
  refine ⟨by rw [Constraint.isContradiction, hs]; rfl, fun z hz => .inr ?_, x,
    Constraint.mem_variables.mpr (.inl hf.symm), List.mem_singleton.mpr rfl⟩
  rcases Constraint.mem_variables.mp hz with rfl | h
  · exact List.mem_singleton.mpr hf
  · rw [hs] at h
    cases h

/-- an inequality with a variable chosen before matters, too -/
theorem open_of_otherVar? {done : List LogVar} {c : Constraint} {x z : LogVar}
    (h : c.otherVar? x = some z) (hz : z ∈ done) (hzx : z ≠ x) : Open done [x] c := by
  obtain ⟨hx, -, hall⟩ := Constraint.mem_variables_of_otherVar? h
  refine ⟨?_, fun y hy => ?_, x, hx, List.mem_singleton.mpr rfl⟩
  · by_contra hcon
    rw [Bool.not_eq_false, Constraint.isContradiction_iff] at hcon
    rcases Constraint.otherVar?_eq_some.mp h with ⟨hf, hs⟩ | ⟨hfx, _, hs⟩
    · rw [hs, hf, Term.var.injEq] at hcon
      exact hzx hcon
    · rw [hs, Term.var.injEq] at hcon
      exact hfx hcon.symm
  · rcases hall y hy with rfl | rfl
    · exact .inr (List.mem_singleton.mpr rfl)
    · exact .inl hz

/-- the continuations of a valuation of the variables `done` to `vars`; `X ≠ X` is ignored -/
def extensions (cs : ConstraintSet) (done vars : List LogVar) (base : Valuation) :
    Finset Valuation :=
  (overrides vars.toFinset (fun x => x.population.toFinset) base).filter
    fun γ => ∀ c ∈ cs.toList, Open done vars c → c.Holds γ

theorem mem_extensions {cs : ConstraintSet} {done vars : List LogVar} {base γ : Valuation} :
    γ ∈ cs.extensions done vars base ↔ (∀ x ∈ vars, γ x ∈ x.population) ∧
      (∀ x ∉ vars, γ x = base x) ∧ ∀ c ∈ cs, Open done vars c → c.Holds γ := by
  rw [extensions, mem_filter, mem_overrides, and_assoc]
  simp only [List.mem_toFinset, Population.mem_toFinset, SortedSet.mem_toList]

theorem extensions_nil (cs : ConstraintSet) (done : List LogVar) (base : Valuation) :
    cs.extensions done [] base = {base} := by
  ext γ
  rw [mem_extensions, mem_singleton]
  refine ⟨fun h => funext fun x => h.2.1 x List.not_mem_nil, ?_⟩
  rintro rfl
  refine ⟨fun x hx => absurd hx List.not_mem_nil, fun _ _ => rfl, ?_⟩
  rintro c - ⟨-, -, x, -, hx⟩
  exact absurd hx List.not_mem_nil

/-- an individual for `x` that fits the individuals chosen before -/
def Fits (cs : ConstraintSet) (done : List LogVar) (base : Valuation) (x : LogVar) (a : Constant) :
    Prop :=
  a ∈ x.population ∧ ∀ c ∈ cs, Open done [x] c → c.Holds (Function.update base x a)

theorem Fits.holds {cs : ConstraintSet} {done : List LogVar} {base γ : Valuation} {x : LogVar}
    (h : cs.Fits done base x (γ x)) {c : Constraint} (hc : c ∈ cs) (ho : Open done [x] c)
    (hγ : ∀ y ∈ done, y ≠ x → γ y = base y) : c.Holds γ := by
  refine (Constraint.holds_congr fun z hz => ?_).mp (h.2 c hc ho)
  by_cases hzx : z = x
  · rw [hzx, Function.update_self]
  · rw [Function.update_of_ne hzx]
    exact (hγ z ((ho.2.1 z hz).resolve_right fun h => hzx (List.mem_singleton.mp h)) hzx).symm

/-- the first variable is chosen, and then the others -/
theorem mem_extensions_cons {cs : ConstraintSet} {done xs : List LogVar} {x : LogVar}
    (hx : x ∉ xs) (hd : ∀ y ∈ done, y ∉ xs) {base γ : Valuation} :
    γ ∈ cs.extensions done (x :: xs) base ↔
      cs.Fits done base x (γ x)
        ∧ γ ∈ cs.extensions (done ++ [x]) xs (Function.update base x (γ x)) := by
  rw [mem_extensions, mem_extensions]
  constructor
  · rintro ⟨hpop, hbase, hc⟩
    have hupdate : ∀ y ∉ xs, γ y = Function.update base x (γ x) y := by
      intro y hy
      by_cases hyx : y = x
      · rw [hyx, Function.update_self]
      · rw [Function.update_of_ne hyx]
        exact hbase y fun h => (List.mem_cons.mp h).elim hyx hy
    refine ⟨⟨hpop x List.mem_cons_self, fun c hcs ho => ?_⟩,
      fun y hy => hpop y (List.mem_cons_of_mem _ hy), hupdate,
      fun c hcs ho => hc c hcs ho.of_later⟩
    refine (Constraint.holds_congr fun z hz => hupdate z ?_).mp (hc c hcs ho.of_next)
    exact (ho.2.1 z hz).elim (hd z) fun h => List.mem_singleton.mp h ▸ hx
  · rintro ⟨hfit, hpop, hbase, hc⟩
    have hout : ∀ y, y ≠ x → y ∉ xs → γ y = base y := fun y hyx hy => by
      rw [hbase y hy, Function.update_of_ne hyx]
    refine ⟨fun y hy => ?_, fun y hy => ?_, fun c hcs ho => ?_⟩
    · rcases List.mem_cons.mp hy with rfl | hy
      · exact hfit.1
      · exact hpop y hy
    · exact hout y (fun h => hy (List.mem_cons.mpr (.inl h)))
        (fun h => hy (List.mem_cons_of_mem _ h))
    · rcases ho.next_or_later with ho | ho
      · exact hfit.holds hcs ho fun z hz hzx => hout z hzx (hd z hz)
      · exact hc c hcs ho

/-- what a constraint on `x` asks of an individual for `x` -/
theorem fits_iff {cs : ConstraintSet} {done : List LogVar} {base : Valuation} {x : LogVar}
    (hx : x ∉ done) {a : Constant} :
    cs.Fits done base x a ↔ (a ∈ x.population ∧ ∀ c ∈ cs, c.excluded? x ≠ some a)
      ∧ ∀ c ∈ cs, ∀ z ∈ done, c.otherVar? x = some z → a ≠ base z := by
  constructor
  · rintro ⟨hpop, hc⟩
    refine ⟨⟨hpop, fun c hcs hex => ?_⟩, fun c hcs z hz hother => ?_⟩
    · have hholds := hc c hcs (open_of_excluded? hex done)
      obtain ⟨hf, hs⟩ := Constraint.excluded?_eq_some.mp hex
      rw [Constraint.Holds, hs, hf, Function.update_self] at hholds
      exact hholds rfl
    · have hzx : z ≠ x := fun h => hx (h ▸ hz)
      have hholds := hc c hcs (open_of_otherVar? hother hz hzx)
      rw [Constraint.holds_iff_of_otherVar? hother, Function.update_self,
        Function.update_of_ne hzx] at hholds
      exact hholds
  · rintro ⟨⟨hpop, hex⟩, hother⟩
    refine ⟨hpop, fun c hcs ho => ?_⟩
    obtain ⟨hcon, hv, y, hy, hyx⟩ := ho
    rw [List.mem_singleton] at hyx
    subst hyx
    rcases Constraint.cases_of_mem_variables hcon hy with ⟨d, hd⟩ | ⟨z, hzy, hz⟩
    · obtain ⟨hf, hs⟩ := Constraint.excluded?_eq_some.mp hd
      rw [Constraint.Holds, hf, hs, Function.update_self]
      rintro rfl
      exact hex c hcs hd
    · rw [Constraint.holds_iff_of_otherVar? hz, Function.update_self, Function.update_of_ne hzy]
      have hzd := (hv z (Constraint.mem_variables_of_otherVar? hz).2.1).resolve_right
        fun h => hzy (List.mem_singleton.mp h)
      exact hother c hcs z hzd hz

/-- the individuals open to a variable are those that fit -/
theorem mem_choices {cs : ConstraintSet} {chosen : Choices} {x : LogVar}
    (hx : x ∉ chosen.map Prod.fst) {a : Constant} :
    a ∈ (cs.slot x).choices chosen ↔ cs.Fits (chosen.map Prod.fst) chosen.valuation x a := by
  rw [fits_iff hx, Slot.choices_eq, List.mem_filter, decide_eq_true_eq]
  refine and_congr LogVar.mem_domain ?_
  simp only [slot, Slot.taken, List.mem_filterMap, not_exists, not_and]
  constructor
  · rintro h c hc z hz hother rfl
    exact h z ⟨c, hc, hother⟩ (Choices.get?_eq hz)
  · rintro h z ⟨c, hc, hother⟩ heq
    have hz := Choices.get?_eq_some_iff.mp ⟨a, heq⟩
    refine h c hc z hz hother ?_
    rw [Choices.get?_eq hz] at heq
    exact (Option.some.inj heq).symm

theorem nodup_choices {cs : ConstraintSet} (chosen : Choices) (x : LogVar) :
    ((cs.slot x).choices chosen).Nodup := by
  rw [Slot.choices_eq]
  exact (Population.nodup_domain x cs).filter _

theorem card_extensions_cons {cs : ConstraintSet} {chosen : Choices} {x : LogVar}
    {xs : List LogVar} (hx : x ∉ xs) (hxd : x ∉ chosen.map Prod.fst)
    (hd : ∀ y ∈ chosen.map Prod.fst, y ∉ xs) :
    (cs.extensions (chosen.map Prod.fst) (x :: xs) chosen.valuation).card
      = (((cs.slot x).choices chosen).map fun a =>
          (cs.extensions ((chosen ++ [(x, a)]).map Prod.fst) xs
            (Choices.valuation (chosen ++ [(x, a)]))).card).sum := by
  classical
  have hval : ∀ a, Choices.valuation (chosen ++ [(x, a)])
      = Function.update chosen.valuation x a := Choices.valuation_append hxd
  have hkeys : ∀ a : Constant, (chosen ++ [(x, a)]).map Prod.fst = chosen.map Prod.fst ++ [x] :=
    fun a => by simp
  simp only [hval, hkeys]
  rw [← List.sum_toFinset _ (nodup_choices chosen x)]
  rw [Finset.card_eq_sum_card_fiberwise (f := fun γ : Valuation => γ x)
    (t := ((cs.slot x).choices chosen).toFinset)]
  · refine Finset.sum_congr rfl fun a ha => congrArg Finset.card ?_
    rw [List.mem_toFinset, mem_choices hxd] at ha
    ext γ
    rw [mem_filter, mem_extensions_cons hx hd]
    constructor
    · rintro ⟨⟨-, h⟩, rfl⟩
      exact h
    · intro h
      have hγx : γ x = a := by
        rw [(mem_extensions.mp h).2.1 x hx, Function.update_self]
      subst hγx
      exact ⟨⟨ha, h⟩, rfl⟩
  · intro γ hγ
    have hfit := ((mem_extensions_cons hx hd).mp hγ).1
    exact List.mem_toFinset.mpr ((mem_choices hxd).mpr hfit)

/-- the search lists as many completions as there are continuations -/
theorem length_completions (cs : ConstraintSet) {vars : List LogVar} (chosen : Choices)
    (hnd : vars.Nodup) (hd : ∀ y ∈ chosen.map Prod.fst, y ∉ vars) :
    (Slot.completions (cs.slots vars) chosen).length
      = (cs.extensions (chosen.map Prod.fst) vars chosen.valuation).card := by
  induction vars generalizing chosen with
  | nil =>
    rw [extensions_nil, card_singleton]
    rfl
  | cons x xs ih =>
    obtain ⟨hx, hxs⟩ := List.nodup_cons.mp hnd
    have hxd : x ∉ chosen.map Prod.fst := fun h => hd x h List.mem_cons_self
    have hdxs : ∀ y ∈ chosen.map Prod.fst, y ∉ xs := fun y hy h =>
      hd y hy (List.mem_cons_of_mem _ h)
    rw [card_extensions_cons hx hxd hdxs]
    show (List.flatMap _ _).length = _
    rw [List.length_flatMap]
    refine congrArg List.sum (List.map_congr_left fun a _ => ih _ hxs fun y hy hys => ?_)
    rw [List.map_append, List.mem_append] at hy
    rcases hy with hy | hy
    · exact hdxs y hy hys
    · obtain rfl : y = x := List.mem_singleton.mp hy
      exact hx hys

/-! ## what the search finds -/

theorem solves_iff_extension {cs : ConstraintSet} {vars : List LogVar}
    (hcon : ∀ c ∈ cs, (∀ x ∈ c.variables, x ∈ vars) → c.isContradiction = false) {γ : Valuation} :
    γ ∈ cs.solutions vars ↔ γ ∈ cs.extensions [] vars (Choices.valuation []) := by
  rw [mem_solutions, mem_extensions]
  constructor
  · rintro ⟨hs, hd⟩
    refine ⟨hs.mem, hd, fun c hc ho => hs.holds c hc fun x hx => ?_⟩
    exact (ho.2.1 x hx).resolve_left List.not_mem_nil
  · rintro ⟨hpop, hd, hc⟩
    refine ⟨⟨hpop, fun c hcs hv => hc c hcs ⟨hcon c hcs hv, fun x hx => .inr (hv x hx), ?_⟩⟩, hd⟩
    have hfirst := Constraint.mem_variables.mpr (.inl rfl : c.first = c.first ∨ _)
    exact ⟨c.first, hfirst, hv _ hfirst⟩

theorem satisfiable_iff_nonempty {cs : ConstraintSet} {vars : List LogVar} (hnd : vars.Nodup) :
    cs.satisfiable vars = true ↔ (cs.extensions [] vars (Choices.valuation [])).Nonempty := by
  have hlen := length_completions cs [] hnd fun y hy => absurd hy List.not_mem_nil
  rw [satisfiable, Slot.firstFrom_eq_head?, List.isSome_head?, ← card_pos, ← List.length_pos_iff,
    hlen]
  rfl

/-- the search finds a grounding if there is one -/
theorem satisfiable_of_solves {cs : ConstraintSet} {vars : List LogVar} (hnd : vars.Nodup)
    {γ : Valuation} (h : γ.Solves cs vars) : cs.satisfiable vars = true := by
  obtain ⟨hs, hd⟩ := mem_solutions.mp (restrict_mem_solutions h)
  refine (satisfiable_iff_nonempty hnd).mpr ⟨γ.restrict vars, mem_extensions.mpr
    ⟨hs.mem, hd, fun c hc ho => hs.holds c hc fun x hx => ?_⟩⟩
  exact (ho.2.1 x hx).resolve_left List.not_mem_nil

/-- what the search finds is a grounding -/
theorem exists_solves {cs : ConstraintSet} {vars : List LogVar} (hnd : vars.Nodup)
    (hcon : ∀ c ∈ cs, (∀ x ∈ c.variables, x ∈ vars) → c.isContradiction = false)
    (h : cs.satisfiable vars = true) : ∃ γ : Valuation, γ.Solves cs vars := by
  obtain ⟨γ, hγ⟩ := (satisfiable_iff_nonempty hnd).mp h
  exact ⟨γ, solves_of_mem ((solves_iff_extension hcon).mpr hγ)⟩

/-- fewer variables are no harder to ground -/
theorem satisfiable_mono {cs : ConstraintSet} {vars ws : List LogVar} (hvars : vars.Nodup)
    (hws : ws.Nodup) (hsub : ∀ x ∈ ws, x ∈ vars) (h : cs.satisfiable vars = true) :
    cs.satisfiable ws = true := by
  obtain ⟨γ, hγ⟩ := (satisfiable_iff_nonempty hvars).mp h
  obtain ⟨hmem, -, hholds⟩ := mem_extensions.mp hγ
  let δ : Valuation := fun x => if x ∈ ws then γ x else Choices.valuation [] x
  have hδ : ∀ x ∈ ws, δ x = γ x := fun x hx => if_pos hx
  refine (satisfiable_iff_nonempty hws).mpr ⟨δ, mem_extensions.mpr ⟨fun x hx => ?_,
    fun x hx => if_neg hx, fun c hc ⟨hcon, hin, x, hx, hxw⟩ => ?_⟩⟩
  · rw [hδ x hx]
    exact hmem x (hsub x hx)
  · have hin : ∀ y ∈ c.variables, y ∈ ws := fun y hy => (hin y hy).resolve_left List.not_mem_nil
    refine (Constraint.holds_congr fun y hy => hδ y (hin y hy)).mpr (hholds c hc
      ⟨hcon, fun y hy => .inr (hsub y (hin y hy)), x, hx, hsub x hxw⟩)

end ConstraintSet

end LiftedElimination
