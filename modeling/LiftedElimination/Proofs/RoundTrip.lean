import LiftedElimination.Proofs.JsonForms
import LiftedElimination.Proofs.Refinement

/-!
# The round trip of marginals and substitutions

* `Marginal.ofJson?_listed`    the components of a marginal may be listed in any order;
* `Marginal.round_trip`         **what is read back from the texts of marginals and substitutions**.
-/

namespace LiftedElimination

namespace Marginal

section

variable {K : Type} [JsonForm K] [Scalar K]

/-- the form of a marginal with the components in the listed order -/
def listed (components : List (Component K)) (kept : List PrvSet) : Json :=
  .ofFields [("distribution", .ofFields [("parfactors", toJson components)]),
    ("preservable", toJson kept)]

/-- the entries of all tables -/
def entries (m : Marginal K) : List K := m.distribution.toList.flatMap fun c => c.factor.toList

/-- **The components may be listed in any order**: a set is read. -/
theorem ofJson?_listed {m : Marginal K} (h : ∀ x ∈ m.entries, Faithful x) {l : List (Component K)}
    (hl : l.Perm m.distribution.toList) :
    (listed l m.kept).Regular ∧ ofJson? (listed l m.kept) = some m := by
  have hcomponents : Faithful l := faithful_list fun c hc => faithful_component fun x hx =>
    h x (List.mem_flatMap.mpr ⟨c, hl.mem_iff.mp hc, hx⟩)
  have hdistribution : (ofJson? (.ofFields [("parfactors", toJson l)]) : Option (Distribution K))
      = some m.distribution := by
    show (do
      let components : List (Component K) ← ofJson? (toJson l)
      return (⟨.ofList components⟩ : Distribution K)) = _
    rw [hcomponents.ofJson?_eq]
    exact congrArg (fun s => some (Distribution.mk s)) (SortedSet.ofList_of_perm hl)
  constructor
  · have hfields : (Json.ofFields [("parfactors", toJson l)]).Regular :=
      Json.regular_ofFields (by simpa using hcomponents.regular)
    exact Json.regular_ofFields (by simpa using hfields)
  · show (do return (⟨← ofJson? (.ofFields [("parfactors", toJson l)]), ← ofJson? (toJson m.kept)⟩
      : Marginal K)) = some m
    rw [hdistribution, ofJson?_toJson]
    rfl

end

/-- **The round trip.**  A marginal whose entries are finite is read back from its text, whatever
order its components are written in, provided that its entries are read back from theirs.  Every
substitution is read back from its text.  A text of bindings is no substitution if, and only if, a
source is repeated. -/
theorem round_trip (m : Marginal Float) (hfinite : ∀ x ∈ m.entries, x.isFinite = true)
    (hentries : ∀ x ∈ m.entries, x.isFinite = true → Json.float? (Json.ofFloat x) = some x) :
    readJson? (writeJson m) = some m
      ∧ (∀ l : List (Component Float), l.Perm m.distribution.toList →
        readJson? (listed l m.kept).text = some m)
      ∧ (∀ s : Substitution, readJson? (writeJson s) = some s)
      ∧ ∀ (t : String) (l : List Binding), readJson? t = some l →
        ((readJson? t : Option Substitution) = none ↔ ¬ (l.map Binding.source).Nodup) := by
  have hm : ∀ l : List (Component Float), l.Perm m.distribution.toList →
      readJson? (listed l m.kept).text = some m := by
    intro l hl
    obtain ⟨hregular, hread⟩ := ofJson?_listed
      (fun x hx => faithful_float (hentries x hx (hfinite x hx))) hl
    rw [readJson?, Json.read?_text hregular]
    exact hread
  refine ⟨hm _ (.refl _), hm, fun s => (LawfulJsonForm.faithful s).readJson?_text, fun t l h => ?_⟩
  obtain ⟨j, hj, hl⟩ := Option.bind_eq_some_iff.mp h
  rw [readJson?, hj, Option.bind_some, ofJson?_substitution hl, ← Substitution.exists_ofBindings]
  cases Substitution.ofBindings l with
  | error e =>
    refine iff_of_true rfl ?_
    rintro ⟨s, hs⟩
    cases hs
  | ok s => exact iff_of_false (Option.some_ne_none s) fun h => h ⟨s, rfl⟩

end Marginal

/-! ## a measured epidemic -/

namespace Epidemic

/-- entries with a fraction, a negative zero and an exponent, a formula and an aggregation -/
def measured : Marginal Float :=
  .make [.standard ⟨∅, [.atom (sick (.const ⟨"x1"⟩)), .atom epidemic], ⟨#[0.5, 1, -0.0, 3]⟩⟩,
    .standard ⟨∅, [.count ⟨person, sick (.var person), ∅⟩, .atom epidemic],
      ⟨#[1e20, 2, 0.25, 4, 1, 1, 2, 2]⟩⟩,
    .aggregation ⟨∅, sick (.var person), alarm, [], ⟨#[1, 0.25]⟩, .disjunction, person⟩]
    [⟨.atom epidemic, ∅⟩]

end Epidemic

theorem Epidemic.round_trip_measured : (∀ x ∈ measured.entries, x.isFinite = true)
    ∧ readJson? (writeJson measured) = some measured
    ∧ (readJson? (writeJson [(⟨person, .const ⟨"x1"⟩⟩ : Binding), ⟨person, .const ⟨"x2"⟩⟩])
      : Option Substitution) = none := by
  have hfinite : ∀ x ∈ measured.entries, x.isFinite = true := by decide +kernel
  obtain ⟨hread, -, -, hrefused⟩ := Marginal.round_trip measured hfinite (by decide +kernel)
  exact ⟨hfinite, hread, (hrefused _ _ (LawfulJsonForm.faithful _).readJson?_text).mpr (by decide)⟩

end LiftedElimination
