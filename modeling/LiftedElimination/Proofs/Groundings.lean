import LiftedElimination.Proofs.Enumeration
import LiftedElimination.Proofs.Listing

/-!
# The list of groundings

The search chooses an individual for one variable after the other, and looks at a constraint as soon
as both its sides are known, from whichever side the later variable stands.  What it lists are
substitutions; what they ought to be is said here without the search.

* `Substitution.Grounds`    the groundings: what they bind, to whom, and which constraints they keep;
* `grounds_iff_solution`    a grounding is a solution of the constraints, as a substitution;
* `exists_completion`       the search drops no solution;
* `mem_of_completion`       and what it completes are solutions;
* `groundings_exact`        **every grounding is listed, once, and nothing else.**
-/

namespace LiftedElimination

/-! ## groundings as substitutions -/

namespace Substitution

variable {θ η : Substitution} {x : LogVar}

theorem mem_domain : x ∈ θ.domain ↔ ∃ t, θ.get? x = some t := by
  simp only [domain, List.mem_map, get?_eq_some]
  exact ⟨fun ⟨b, hb, hx⟩ => ⟨b.target, hx ▸ hb⟩, fun ⟨t, ht⟩ => ⟨_, ht, rfl⟩⟩

/-- substitutions that bind alike are equal -/
theorem eq_of_get? (h : ∀ x, θ.get? x = η.get? x) : θ = η := by
  have hmem : ∀ b, b ∈ θ.bindings ↔ b ∈ η.bindings := fun b => by
    rw [← get?_eq_some (s := θ), ← get?_eq_some (s := η), h]
  exact eq_of_perm ((List.perm_ext_iff_of_nodup (List.Nodup.of_map _ θ.nodup_domain)
    (List.Nodup.of_map _ η.nodup_domain)).mpr hmem)

/-- `θ` binds the variables `vars` and no others, each to an individual of its population, and the
two sides of every constraint on `vars` become different -/
structure Grounds (θ : Substitution) (cs : ConstraintSet) (vars : List LogVar) : Prop where
  domain : ∀ x, x ∈ θ.domain ↔ x ∈ vars
  individual : ∀ x ∈ vars, ∃ c ∈ x.population, θ.get? x = some (.const c)
  different : ∀ c ∈ cs, (∀ x ∈ c.variables, x ∈ vars) →
    θ.apply (.var c.first) ≠ θ.apply c.second

/-- the individuals a substitution gives, the default individual where it gives none -/
def individuals (θ : Substitution) : Valuation := θ.pull fun _ => default

theorem individuals_of_get? {c : Constant} (h : θ.get? x = some (.const c)) :
    θ.individuals x = c := by
  rw [individuals, pull, show θ.apply (.var x) = .const c from apply_of_mem (get?_eq_some.mp h)]
  rfl

theorem individuals_of_none (h : θ.get? x = none) : θ.individuals x = default := by
  rw [individuals, pull, apply_of_get?_none h]
  rfl

variable {cs : ConstraintSet} {vars : List LogVar}

/-- a constraint with both sides bound is kept if the individuals on its sides differ -/
theorem holds_individuals {c : Constraint}
    (h : ∀ x ∈ c.variables, ∃ a, θ.get? x = some (.const a)) :
    c.Holds θ.individuals ↔ θ.apply (.var c.first) ≠ θ.apply c.second := by
  have hconst : ∀ t : Term, (∀ x, t = .var x → x ∈ c.variables) → ∃ a, θ.apply t = .const a := by
    rintro (x | a) ht
    · obtain ⟨a, ha⟩ := h x (ht x rfl)
      exact ⟨a, apply_of_mem (get?_eq_some.mp ha)⟩
    · exact ⟨a, rfl⟩
  have hnone : c.apply θ = none := Constraint.between_eq_none.mpr
    ⟨hconst _ fun x hx => Constraint.mem_variables.mpr (.inl (Term.var.inj hx).symm),
      hconst _ fun x hx => Constraint.mem_variables.mpr (.inr hx)⟩
  rw [individuals, Constraint.holds_of_apply_none hnone, Constraint.isViolatedBy,
    beq_eq_false_iff_ne]

/-- **A grounding** is a solution of the constraints, written as a substitution. -/
theorem grounds_iff_solution : θ.Grounds cs vars ↔ (∀ x, x ∈ θ.domain ↔ x ∈ vars)
    ∧ (∀ x ∈ vars, θ.get? x = some (.const (θ.individuals x)))
    ∧ θ.individuals ∈ cs.solutions vars := by
  rw [ConstraintSet.mem_solutions]
  constructor
  · intro h
    have hget : ∀ x ∈ vars, θ.get? x = some (.const (θ.individuals x)) := fun x hx => by
      obtain ⟨c, -, hc⟩ := h.individual x hx
      rw [hc, individuals_of_get? hc]
    refine ⟨h.domain, hget, ⟨fun x hx => ?_, fun c hc hin => ?_⟩, fun x hx => ?_⟩
    · obtain ⟨c, hmem, hc⟩ := h.individual x hx
      exact individuals_of_get? hc ▸ hmem
    · exact (holds_individuals fun x hx => ⟨_, hget x (hin x hx)⟩).mpr (h.different c hc hin)
    · refine individuals_of_none (Option.eq_none_iff_forall_ne_some.mpr fun t ht => hx ?_)
      exact (h.domain x).mp (mem_domain.mpr ⟨t, ht⟩)
  · rintro ⟨hdomain, hget, hsolves, -⟩
    refine ⟨hdomain, fun x hx => ⟨_, hsolves.mem x hx, hget x hx⟩, fun c hc hin => ?_⟩
    exact (holds_individuals fun x hx => ⟨_, hget x (hin x hx)⟩).mp (hsolves.holds c hc hin)

end Substitution

/-! ## choices as substitutions -/

namespace Choices

open Substitution

theorem get?_toSubstitution (chosen : Choices) (x : LogVar) :
    chosen.toSubstitution.get? x = (chosen.get? x).map .const := by
  suffices h : ∀ s : Substitution,
      (chosen.foldl (fun s p => s.bindNew ⟨p.1, .const p.2⟩) s).get? x
        = (s.get? x).or ((chosen.get? x).map .const) by
    rw [toSubstitution, h]
    rfl
  induction chosen with
  | nil => exact fun s => (Option.or_none).symm
  | cons p l ih =>
    intro s
    rw [List.foldl_cons, ih, get?_bindNew]
    by_cases hx : x = p.1
    · have hfirst : get? (p :: l) x = some p.2 := by simp [get?, hx]
      rw [hfirst]
      cases s.get? x <;> simp [hx]
    · have hlater : get? (p :: l) x = get? l x := by simp [get?, Ne.symm hx]
      rw [if_neg fun h => hx h.2, hlater]

/-- a substitution gives the individuals chosen -/
theorem individuals_toSubstitution (chosen : Choices) :
    chosen.toSubstitution.individuals = chosen.valuation := by
  funext x
  have hget := get?_toSubstitution chosen x
  cases hx : chosen.get? x with
  | none =>
    rw [hx] at hget
    rw [individuals_of_none hget, valuation, hx]
    rfl
  | some c =>
    rw [hx] at hget
    rw [individuals_of_get? hget, valuation, hx]
    rfl

theorem mem_domain_toSubstitution {chosen : Choices} {x : LogVar} :
    x ∈ chosen.toSubstitution.domain ↔ x ∈ chosen.map Prod.fst := by
  rw [mem_domain, get?_toSubstitution, ← get?_eq_some_iff]
  cases chosen.get? x <;> simp

end Choices

/-! ## the search -/

namespace ConstraintSet

variable {cs : ConstraintSet} {vars : List LogVar} {chosen done : Choices} {γ : Valuation}

/-- the variables that are left stay so when the next one is chosen -/
theorem notMem_of_append {x : LogVar} {xs : List LogVar} (hnd : (x :: xs).Nodup)
    (hd : ∀ y ∈ done.map Prod.fst, y ∉ x :: xs) (a : Constant) :
    ∀ y ∈ (done ++ [(x, a)]).map Prod.fst, y ∉ xs := by
  intro y hy
  rw [List.map_append, List.mem_append] at hy
  rcases hy with hy | hy
  · exact fun h => hd y hy (List.mem_cons_of_mem _ h)
  · exact List.mem_singleton.mp hy ▸ (List.nodup_cons.mp hnd).1

/-- one choice more: the next variable gets what it has, and the others continue from there -/
theorem mem_extensions_append {x : LogVar} {xs : List LogVar} (hnd : (x :: xs).Nodup)
    (hd : ∀ y ∈ done.map Prod.fst, y ∉ x :: xs) :
    γ ∈ cs.extensions (done.map Prod.fst) (x :: xs) done.valuation ↔
      γ x ∈ (cs.slot x).choices done ∧ γ ∈ cs.extensions ((done ++ [(x, γ x)]).map Prod.fst) xs
        (Choices.valuation (done ++ [(x, γ x)])) := by
  have hxd : x ∉ done.map Prod.fst := fun h => hd x h List.mem_cons_self
  rw [mem_extensions_cons (List.nodup_cons.mp hnd).1 fun y hy h =>
    hd y hy (List.mem_cons_of_mem _ h), mem_choices hxd, Choices.valuation_append hxd,
    List.map_append]
  rfl

/-- **Soundness of the search**: it chooses for the variables in turn, and what it completes is a
continuation that keeps the constraints -/
theorem mem_of_completion (hnd : vars.Nodup) (hd : ∀ y ∈ done.map Prod.fst, y ∉ vars)
    (h : chosen ∈ Slot.completions (cs.slots vars) done) :
    chosen.map Prod.fst = done.map Prod.fst ++ vars
      ∧ chosen.valuation ∈ cs.extensions (done.map Prod.fst) vars done.valuation := by
  induction vars generalizing done with
  | nil =>
    obtain rfl : chosen = done := List.mem_singleton.mp h
    rw [List.append_nil, extensions_nil]
    exact ⟨rfl, Finset.mem_singleton_self _⟩
  | cons x xs ih =>
    obtain ⟨hx, hxs⟩ := List.nodup_cons.mp hnd
    have hxd : x ∉ done.map Prod.fst := fun h => hd x h List.mem_cons_self
    obtain ⟨a, ha, hmem⟩ := List.mem_flatMap.mp h
    obtain ⟨hvars, hext⟩ := ih hxs (notMem_of_append hnd hd a) hmem
    have hself : chosen.valuation x = a := by
      rw [(mem_extensions.mp hext).2.1 x hx]
      exact (congrFun (Choices.valuation_append hxd a) x).trans (Function.update_self ..)
    subst hself
    refine ⟨?_, (mem_extensions_append hnd hd).mpr ⟨ha, hext⟩⟩
    rw [hvars, List.map_append, List.append_assoc]
    rfl

/-- **Completeness of the search**: every continuation that keeps the constraints is completed -/
theorem exists_completion (hnd : vars.Nodup) (hd : ∀ y ∈ done.map Prod.fst, y ∉ vars)
    (h : γ ∈ cs.extensions (done.map Prod.fst) vars done.valuation) :
    ∃ chosen ∈ Slot.completions (cs.slots vars) done, Choices.valuation chosen = γ := by
  induction vars generalizing done with
  | nil =>
    rw [extensions_nil, Finset.mem_singleton] at h
    exact ⟨done, List.mem_singleton.mpr rfl, h.symm⟩
  | cons x xs ih =>
    obtain ⟨hchoice, hrest⟩ := (mem_extensions_append hnd hd).mp h
    obtain ⟨chosen, hmem, hval⟩ :=
      ih (List.nodup_cons.mp hnd).2 (notMem_of_append hnd hd (γ x)) hrest
    exact ⟨chosen, List.mem_flatMap.mpr ⟨γ x, hchoice, hmem⟩, hval⟩

/-- no two completions choose the same individuals, as there are as many as continuations -/
theorem nodup_completions (hnd : vars.Nodup) (hd : ∀ y ∈ done.map Prod.fst, y ∉ vars) :
    ((Slot.completions (cs.slots vars) done).map Choices.valuation).Nodup := by
  classical
  have hset : ((Slot.completions (cs.slots vars) done).map Choices.valuation).toFinset
      = cs.extensions (done.map Prod.fst) vars done.valuation := by
    ext γ
    rw [List.mem_toFinset, List.mem_map]
    refine ⟨?_, fun h => exists_completion hnd hd h⟩
    rintro ⟨chosen, hmem, rfl⟩
    exact (mem_of_completion hnd hd hmem).2
  have hcard : ((Slot.completions (cs.slots vars) done).map Choices.valuation).toFinset.card
      = ((Slot.completions (cs.slots vars) done).map Choices.valuation).length := by
    rw [hset, List.length_map, length_completions cs done hnd hd]
  exact Multiset.toFinset_card_eq_card_iff_nodup.mp hcard

/-! ## the list -/

theorem nodup_groundings (cs : ConstraintSet) (hnd : vars.Nodup) : (cs.groundings vars).Nodup := by
  refine List.Nodup.of_map Substitution.individuals ?_
  rw [groundings, List.map_map, List.map_congr_left fun chosen _ => ?_]
  · exact nodup_completions hnd fun y hy => absurd hy List.not_mem_nil
  · exact chosen.individuals_toSubstitution

theorem mem_groundings (hnd : vars.Nodup) (hcon : ∀ c ∈ cs, c.isContradiction = false)
    {θ : Substitution} : θ ∈ cs.groundings vars ↔ θ.Grounds cs vars := by
  have hempty : ∀ y ∈ List.map Prod.fst ([] : Choices), y ∉ vars :=
    fun y hy => absurd hy List.not_mem_nil
  rw [Substitution.grounds_iff_solution, solves_iff_extension fun c hc _ => hcon c hc, groundings,
    List.mem_map]
  constructor
  · rintro ⟨chosen, hmem, rfl⟩
    obtain ⟨hvars, hext⟩ := mem_of_completion hnd hempty hmem
    rw [List.map_nil, List.nil_append] at hvars
    rw [chosen.individuals_toSubstitution]
    refine ⟨fun x => hvars ▸ Choices.mem_domain_toSubstitution, fun x hx => ?_, hext⟩
    rw [Choices.get?_toSubstitution, Choices.get?_eq (hvars ▸ hx)]
    rfl
  · rintro ⟨hdomain, hget, hext⟩
    obtain ⟨chosen, hmem, hval⟩ := exists_completion hnd hempty hext
    obtain ⟨hvars, -⟩ := mem_of_completion hnd hempty hmem
    rw [List.map_nil, List.nil_append] at hvars
    refine ⟨chosen, hmem, Substitution.eq_of_get? fun x => ?_⟩
    rw [Choices.get?_toSubstitution]
    by_cases hx : x ∈ vars
    · rw [hget x hx, Choices.get?_eq (hvars ▸ hx), hval]
      rfl
    · have hchosen : chosen.get? x = none := Option.eq_none_iff_forall_ne_some.mpr fun c hc =>
        hx (hvars ▸ Choices.get?_eq_some_iff.mp ⟨c, hc⟩)
      have hnone : θ.get? x = none := Option.eq_none_iff_forall_ne_some.mpr fun t ht =>
        hx ((hdomain x).mp (Substitution.mem_domain.mpr ⟨t, ht⟩))
      rw [hchosen, hnone]
      rfl

/-- **Enumeration of groundings.**  Where no variable is to differ from itself, the list has every
grounding of the variables, each once, and nothing else; the search for one finds the first of the
list; and constraints are satisfiable where there is a grounding. -/
theorem groundings_exact (hnd : vars.Nodup) (hcon : ∀ c ∈ cs, c.isContradiction = false) :
    (cs.groundings vars).Nodup
      ∧ (∀ θ, θ ∈ cs.groundings vars ↔ θ.Grounds cs vars)
      ∧ cs.firstGrounding vars = (cs.groundings vars).head?
      ∧ (cs.satisfiable vars = true ↔ ∃ θ : Substitution, θ.Grounds cs vars) := by
  refine ⟨nodup_groundings cs hnd, fun θ => mem_groundings hnd hcon,
    firstGrounding_eq_head? cs vars, ?_⟩
  have hfound : cs.groundings vars ≠ [] ↔ ∃ θ, θ ∈ cs.groundings vars :=
    ⟨List.exists_mem_of_ne_nil _, fun ⟨_, hθ⟩ => List.ne_nil_of_mem hθ⟩
  rw [satisfiable_iff, hfound]
  exact exists_congr fun θ => mem_groundings hnd hcon

end ConstraintSet

namespace Epidemic

/-- two people who both differ from a third one, who is grounded last -/
theorem groundings_exact_fan :
    [person, other, named].Nodup ∧ (∀ c ∈ fan, c.isContradiction = false)
      ∧ (fan.groundings [person, other, named]).Nodup
      ∧ (∀ θ, θ ∈ fan.groundings [person, other, named] ↔ θ.Grounds fan [person, other, named])
      ∧ ∃ θ : Substitution, θ.Grounds fan [person, other, named] := by
  have hnd : [person, other, named].Nodup := by decide
  have hcon : ∀ c ∈ fan, c.isContradiction = false := by decide
  have hsat : fan.satisfiable [person, other, named] = true := by decide
  obtain ⟨honce, hmem, -, hfound⟩ := ConstraintSet.groundings_exact hnd hcon
  exact ⟨hnd, hcon, honce, hmem, hfound.mp hsat⟩

end Epidemic

end LiftedElimination
