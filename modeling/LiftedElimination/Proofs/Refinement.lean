import LiftedElimination.Proofs.Accepted
import LiftedElimination.Proofs.Summation

/-!
# Shattering keeps the meaning

Every refinement replaces one component by components that together mean the same, in normal form,
and puts these back among the others.  So the product of all components is an invariant of the run.

* `Component.Searched`         an aggregation parfactor as the normal form leaves it;
* `Component.Pieces.restates`  the pieces of a refinement restate the component;
* `Stands`                     the invariant: sound components that together mean what is meant;
* `Marginal.sumsTo_shatter`    it carries the meaning through the run;
* `Marginal.shatter_meaning`   a shattered marginal means what the marginal means.
-/

namespace LiftedElimination

open Finset

variable {K : Type}

/-! ## one refinement -/

/-- an aggregation parfactor has passed the search for groundings -/
def Component.Searched : Component K → Prop
  | .standard _ => True
  | .aggregation a => a.constraints.satisfiable a.logVars = true

/-- a checked aggregation parfactor that has passed the search has groundings -/
theorem Aggregation.nonempty_of_toParfactors [Scalar K] {a : Aggregation K} {l : List (Parfactor K)}
    (h : a.toParfactors = .ok l) (hs : a.constraints.satisfiable a.logVars = true) :
    a.solutions.Nonempty := by
  obtain ⟨-, f, g, -, -, -, hg⟩ := toParfactors_ok h
  have hsat := (Parfactor.make_ok hg).1.satisfiable
  refine ConstraintSet.solutions_nonempty.mpr
    (ConstraintSet.exists_solves a.nodup_logVars (fun c hc hv => hsat c ?_) hs)
  exact ConstraintSet.mem_notOnVariable.mpr ⟨hc, fun hx => a.extra_notMem_logVars (hv _ hx)⟩

namespace Component

theorem searched_of_normalize {c d : Component K} (h : c.normalize = .ok (some d)) :
    d.Searched := by
  cases c with
  | standard p =>
    obtain ⟨q, -, hd⟩ := map_ok h
    obtain ⟨q, -, rfl⟩ := Option.map_eq_some_iff.mp hd
    trivial
  | aggregation a =>
    obtain ⟨b, hb, hd⟩ := map_ok h
    obtain ⟨b, rfl, rfl⟩ := Option.map_eq_some_iff.mp hd
    exact (groundSingletons_ok (I := fun _ => True) (fun _ _ _ => trivial)
      (fun _ _ _ _ _ _ => trivial) trivial hb).2 b rfl

variable [ExactScalar K]

theorem Searched.squared {c : Component K} (hc : c.Searched) : c.squared.Searched := by
  cases c with
  | standard p => trivial
  | aggregation a => exact hc

/-- **The pieces of a refinement** restate the component. -/
theorem Pieces.restates {c : Component K} {l : List (Component K)} (h : Pieces c l)
    (hc : c.Sound) (hs : c.Searched) : Restates c l := by
  cases h with
  | split h => exact Parfactor.restates_split hc h
  | aggregationSplit h => exact Aggregation.restates_split hc h
  | expand h => exact Parfactor.restates_expand hc h
  | convert h =>
    exact Aggregation.restates_toParfactors hc (Aggregation.nonempty_of_toParfactors h hs) h

/-- the normal forms of sound components mean their product -/
theorem meaningOf_normalized {pieces : List (Component K)} {normal : List (Option (Component K))}
    (h : List.Forall₂ (fun p r => p.normalize = .ok r) pieces normal)
    (hsound : ∀ p ∈ pieces, p.Sound) {w : World} (hw : ∀ p ∈ pieces, w.Legal p.scope) :
    meaningOf (normal.filterMap id) w = meaningOf pieces w := by
  induction h with
  | nil => rfl
  | @cons p r pieces normal hpr _ ih =>
    have hp := restates_normalize (hsound p List.mem_cons_self) hpr
    have hmeaning := hp.meaning w (hw p List.mem_cons_self)
    have hrest := ih (fun q hq => hsound q (List.mem_cons_of_mem _ hq))
      fun q hq => hw q (List.mem_cons_of_mem _ hq)
    rw [meaningOf_cons, ← hmeaning, ← hrest, ← meaningOf_append]
    cases r <;> rfl

/-- **Normal forms** in place of the components that restate another one -/
theorem restates_normalized {c : Component K} {pieces : List (Component K)}
    {normal : List (Option (Component K))} (h : Restates c pieces)
    (hn : List.Forall₂ (fun p r => p.normalize = .ok r) pieces normal) :
    Restates c (normal.filterMap id) := by
  have hnormal : ∀ d ∈ normal.filterMap id, ∃ p ∈ pieces, Restates p [d] := by
    intro d hd
    obtain ⟨p, hp, hpd⟩ := mem_of_normalized hn hd
    exact ⟨p, hp, restates_normalize (h.sound p hp) hpd⟩
  refine ⟨fun d hd => ?_, fun d hd => ?_, fun w hw => ?_⟩
  · obtain ⟨p, -, hpd⟩ := hnormal d hd
    exact hpd.sound d (List.mem_singleton.mpr rfl)
  · obtain ⟨p, hp, hpd⟩ := hnormal d hd
    exact (hpd.scope d (List.mem_singleton.mpr rfl)).trans (h.scope p hp)
  · rw [meaningOf_normalized hn h.sound fun p hp => hw.mono (h.scope p hp)]
    exact h.meaning w hw

/-- **The normalised pieces** restate the component. -/
theorem restates_perform {c : Component K} {a : Action} {l : List (Component K)}
    (h : c.perform a = .ok l) (hc : c.Sound) (hs : c.Searched) : Restates c l := by
  obtain ⟨pieces, normal, hp, hn, rfl⟩ := perform_ok h
  exact restates_normalized ((pieces_ok hp).restates hc hs) hn

theorem searched_perform {c : Component K} {a : Action} {l : List (Component K)}
    (h : c.perform a = .ok l) : ∀ d ∈ l, d.Searched := by
  obtain ⟨pieces, normal, -, hn, rfl⟩ := perform_ok h
  intro d hd
  obtain ⟨p, -, hpd⟩ := mem_of_normalized hn hd
  exact searched_of_normalize hpd

end Component

/-! ## the run -/

section
variable [ExactScalar K]

/-- what is carried through the run about one component -/
structure Good (s : Finset RandomVariable) (c : Component K) : Prop where
  sound : c.Sound
  scope : c.scope ⊆ s
  searched : c.Searched

theorem Good.squared {s : Finset RandomVariable} {c : Component K} (hc : Good s c) :
    Good s c.squared := ⟨hc.sound.squared, c.scope_squared ▸ hc.scope, hc.searched.squared⟩

/-- **The invariant**: sound components within `s` that together mean `F` -/
structure Stands (s : Finset RandomVariable) (F : World → K) (l : List (Component K)) : Prop where
  good : ∀ c ∈ l, Good s c
  meaning : ∀ w : World, w.Legal s → meaningOf l w = F w

variable {s : Finset RandomVariable} {F : World → K}

theorem good_foldl_pushFolded {l m : List (Component K)} (hl : ∀ c ∈ l, Good s c)
    (hm : ∀ c ∈ m, Good s c) : ∀ c ∈ l.foldl Distribution.pushFolded m, Good s c :=
  forall_mem_foldl_pushFolded (fun _ hc => hc.squared) hl hm

/-- **One round of refinement** keeps the invariant. -/
theorem Stands.refine {l pieces : List (Component K)} {i : Nat} {c : Component K} {a : Action}
    (h : Stands s F l) (hi : l[i]? = some c) (hp : c.perform a = .ok pieces) :
    Stands s F (pieces.foldl Distribution.pushFolded (l.eraseIdx i)) := by
  have hc := h.good c (List.mem_of_getElem? hi)
  have hpieces := Component.restates_perform hp hc.sound hc.searched
  refine ⟨good_foldl_pushFolded (fun d hd => ?_) fun d hd => h.good d (List.mem_of_mem_eraseIdx hd),
    fun w hw => ?_⟩
  · exact ⟨hpieces.sound d hd, (hpieces.scope d hd).trans hc.scope,
      Component.searched_perform hp d hd⟩
  · rw [meaningOf_foldl_pushFolded, hpieces.meaning w (hw.mono hc.scope), meaningOf_eraseIdx hi,
      h.meaning w hw]

/-- the invariant holds at the start -/
theorem stands_normalized {l : List (Component K)} {normal : List (Option (Component K))}
    (hsound : ∀ c ∈ l, c.Sound)
    (hn : List.Forall₂ (fun (p : Component K) r => p.normalize = .ok r) l normal) :
    Stands (scopeOf l) (meaningOf l)
      ((normal.filterMap id).foldl Distribution.pushFolded []) := by
  have hscope : ∀ c ∈ l, c.scope ⊆ scopeOf l := fun c hc v hv => mem_scopeOf.mpr ⟨c, hc, hv⟩
  refine ⟨good_foldl_pushFolded (fun d hd => ?_) fun d hd => absurd hd List.not_mem_nil,
    fun w hw => ?_⟩
  · obtain ⟨p, hp, hpd⟩ := Component.mem_of_normalized hn hd
    have hrestates := Component.restates_normalize (hsound p hp) hpd
    exact ⟨hrestates.sound d (List.mem_singleton.mpr rfl),
      (hrestates.scope d (List.mem_singleton.mpr rfl)).trans (hscope p hp),
      Component.searched_of_normalize hpd⟩
  · rw [meaningOf_foldl_pushFolded, meaningOf_nil, one_mul]
    exact Component.meaningOf_normalized hn hsound fun p hp => hw.mono (hscope p hp)

namespace Marginal

/-- **Shattering from sound components on** leaves sound components with the same meaning. -/
theorem sumsTo_shatter {m s : Marginal K} (hm : ∀ c ∈ m.distribution.toList, c.Sound)
    (h : m.shatter = .ok s) : m.SumsTo ∅ s := by
  obtain ⟨cs, hcs, -, rfl⟩ := shatter_ok (P := Stands m.scope m.meaning)
    (fun normal hn => stands_normalized hm hn)
    (fun cs i c a pieces hcs hci hpieces => hcs.refine hci hpieces) h
  have hgood := Distribution.forall_mem_ofList (P := Good m.scope) (fun _ hc => hc.squared) hcs.good
  refine sumsTo_empty rfl (fun c hc => (hgood c hc).sound) (fun v hv => ?_) fun w hw => ?_
  · obtain ⟨c, hc, hv⟩ := mem_scopeOf.mp hv
    exact (hgood c hc).scope hv
  · show meaningOf (Distribution.ofList cs).toList w = m.meaning w
    rw [Distribution.meaningOf_ofList, hcs.meaning w hw]

/-- **Shattering keeps the meaning**: if the builders have accepted the components and all formulas
are exact, the shattered marginal means what the marginal means, in all worlds, and keeps the same
sets. -/
theorem shatter_meaning {m s : Marginal K} (hm : m.Accepted) (hexact : m.Exact)
    (h : m.shatter = .ok s) :
    s.kept = m.kept ∧ ∀ w : World, w.Legal m.scope → s.meaning w = m.meaning w := by
  have hsums := sumsTo_shatter (hm.sound hexact) h
  exact ⟨hsums.kept, fun w hw => hsums.meaning_eq hw⟩

end Marginal

end

/-! ## a counted epidemic -/

open scoped ExactScalar

namespace Epidemic

/-- how many people are sick -/
def sickPeople : CountingFormula := ⟨person, sick (.var person), ∅⟩

def alarm : Atom := ⟨"alarm", [], .boolean⟩

/-- an alarm goes off if anybody is sick, and an epidemic depends on how many are -/
def counted : Marginal Nat :=
  .make [.standard ⟨∅, [.count sickPeople, .atom epidemic], ⟨#[5, 1, 3, 1, 2, 2, 1, 4]⟩⟩,
    .standard ⟨∅, [.atom (sick (.const ⟨"x1"⟩))], ⟨#[1, 5]⟩⟩,
    .aggregation ⟨∅, sick (.var person), alarm, [], ⟨#[1, 2]⟩, .disjunction, person⟩]
    [⟨.atom epidemic, ∅⟩]

theorem exact_sickPeople (γ : Valuation) : sickPeople.Exact γ := by
  have hvalid : sickPeople.Valid := ⟨by decide, fun c hc => (nomatch hc), fun c hc => (nomatch hc)⟩
  exact (CountingFormula.exact_iff hvalid).mpr ⟨List.nodup_nil, fun x hx => (nomatch hx), by decide⟩

theorem accepted_counted : counted.Accepted := by
  refine Marginal.accepted_make fun c hc => ?_
  simp only [List.mem_cons, List.not_mem_nil, or_false] at hc
  rcases hc with rfl | rfl | rfl
  · refine ⟨rfl, fun f hf => ?_, by decide⟩
    simp only [List.mem_cons, List.not_mem_nil, or_false, Prv.count.injEq, reduceCtorEq] at hf
    subst hf
    rfl
  · exact ⟨rfl, fun f hf => by simp at hf, by decide⟩
  · exact ⟨rfl, by decide⟩

theorem exact_counted : counted.Exact := by
  refine Marginal.exact_make fun c hc => ?_
  simp only [List.mem_cons, List.not_mem_nil, or_false] at hc
  rcases hc with rfl | rfl | rfl
  · intro γ _ f hf
    simp only [List.mem_cons, List.not_mem_nil, or_false, Prv.count.injEq, reduceCtorEq] at hf
    exact hf ▸ exact_sickPeople γ
  · exact fun γ _ f hf => by simp at hf
  · exact fun γ _ => exact_sickPeople γ

end Epidemic

theorem Epidemic.shatter_meaning_counted : ∃ s, counted.shatter = .ok s ∧ s.kept = counted.kept
    ∧ ∀ w : World, w.Legal counted.scope → s.meaning w = counted.meaning w := by
  cases h : counted.shatter with
  | error e =>
    have hok : counted.shatter.isOk = true := by decide +kernel
    rw [h] at hok
    cases hok
  | ok s => exact ⟨s, rfl, Marginal.shatter_meaning accepted_counted exact_counted h⟩

end LiftedElimination
