import LiftedElimination.Json.Model
import LiftedElimination.Proofs.JsonText
import LiftedElimination.Proofs.Listing

/-!
# Forms that give their values back

* `Faithful a`         the form of `a` is regular, and is read as `a`;
* `LawfulJsonForm α`   all values of `α` have such forms, as those without table entries do;
* `Faithful.readJson?_text`   **a value with such a form is read back from its text**;
* `faithful_component`   a component has such a form if its table entries have.
-/

namespace LiftedElimination

/-- the form of `a` is regular, and is read as `a` -/
structure Faithful {α : Type} [JsonForm α] (a : α) : Prop where
  regular : (toJson a).Regular
  ofJson?_eq : ofJson? (toJson a) = some a

/-- a form that gives all values back -/
class LawfulJsonForm (α : Type) [JsonForm α] : Prop where
  faithful (a : α) : Faithful a

theorem Faithful.readJson?_text {α : Type} [JsonForm α] {a : α} (h : Faithful a) :
    readJson? (toJson a).text = some a := by
  rw [readJson?, Json.read?_text h.regular]
  exact h.ofJson?_eq

section

variable {α : Type} [JsonForm α] [LawfulJsonForm α]

@[simp] theorem regular_toJson (a : α) : (toJson a).Regular := (LawfulJsonForm.faithful a).regular

@[simp] theorem ofJson?_toJson (a : α) : ofJson? (toJson a) = some a :=
  (LawfulJsonForm.faithful a).ofJson?_eq

end

/-! ## parts of forms -/

namespace Json

theorem regular_ofFields {fields : List (String × Json)} (h : ∀ f ∈ fields, f.2.Regular) :
    (ofFields fields).Regular := by
  refine .object (fun f hf => ?_) fun f hf => ?_ <;> obtain ⟨g, hg, rfl⟩ := List.mem_map.mp hf
  · rfl
  · exact h g hg

theorem mapAll?_map {α β : Type} {f : Json → Option β} {g : α → Json} {h : α → β} {l : List α}
    (hl : ∀ a ∈ l, f (g a) = some (h a)) : mapAll? f (l.map g) = some (l.map h) := by
  induction l with
  | nil => rfl
  | cons a l ih =>
    rw [List.map_cons, mapAll?, hl a List.mem_cons_self,
      ih fun b hb => hl b (List.mem_cons_of_mem _ hb)]
    rfl

end Json

theorem faithful_list {α : Type} [JsonForm α] {l : List α} (h : ∀ a ∈ l, Faithful a) :
    Faithful l where
  regular := .array fun j hj => by
    obtain ⟨a, ha, rfl⟩ := List.mem_map.mp hj
    exact (h a ha).regular
  ofJson?_eq := by
    have hall := Json.mapAll?_map (h := id) fun a ha => (h a ha).ofJson?_eq
    rwa [List.map_id] at hall

instance : LawfulJsonForm String where
  faithful s := ⟨.string s, rfl⟩

instance {α : Type} [JsonForm α] [LawfulJsonForm α] : LawfulJsonForm (List α) where
  faithful _ := faithful_list fun a _ => LawfulJsonForm.faithful a

/-! ## terms -/

instance : LawfulJsonForm Constant where
  faithful c := ⟨regular_toJson c.name, rfl⟩

instance : LawfulJsonForm Population where
  faithful p := ⟨Json.regular_ofFields (by simp), by
    show (do return (⟨← ofJson? (toJson p.individuals)⟩ : Population)) = some p
    simp⟩

instance : LawfulJsonForm LogVar where
  faithful x := ⟨Json.regular_ofFields (by simp), by
    show (do return (⟨← ofJson? (toJson x.name), ← ofJson? (toJson x.population)⟩ : LogVar)) = some x
    simp⟩

instance : LawfulJsonForm Term where
  faithful
    | .var x => ⟨Json.regular_ofFields (by simp), by
        show (ofJson? (toJson x)).map Term.var = some (.var x)
        simp⟩
    | .const c => ⟨Json.regular_ofFields (by simp), by
        show (ofJson? (toJson c)).map Term.const = some (.const c)
        simp⟩

/-! ## constraints and substitutions -/

instance : LawfulJsonForm Constraint where
  faithful c := ⟨Json.regular_ofFields (by simp), by
    show (do return (⟨← ofJson? (toJson c.first), ← ofJson? (toJson c.second)⟩ : Constraint)) = some c
    simp⟩

instance : LawfulJsonForm ConstraintSet where
  faithful cs := ⟨regular_toJson cs.toList, by
    show (ofJson? (toJson cs.toList)).map SortedSet.ofList = some cs
    rw [ofJson?_toJson, Option.map_some, SortedSet.ofList_of_perm (.refl _)]⟩

instance : LawfulJsonForm Binding where
  faithful b := ⟨Json.regular_ofFields (by simp), by
    show (do return (⟨← ofJson? (toJson b.source), ← ofJson? (toJson b.target)⟩ : Binding)) = some b
    simp⟩

/-- a substitution is read from any list of its bindings, and a list that repeats a source is no
substitution -/
theorem ofJson?_substitution {j : Json} {l : List Binding} (h : ofJson? j = some l) :
    (ofJson? j : Option Substitution) = (Substitution.ofBindings l).toOption := by
  have hbind : (ofJson? j : Option Substitution)
      = (ofJson? j).bind fun l => (Substitution.ofBindings l).toOption := by
    refine Option.bind_congr fun l _ => ?_
    cases Substitution.ofBindings l <;> rfl
  rw [hbind, h]
  rfl

instance : LawfulJsonForm Substitution where
  faithful s := ⟨regular_toJson s.bindings, by
    have hread := ofJson?_substitution (ofJson?_toJson s.bindings)
    rwa [Substitution.ofBindings_eq_ok.mpr (.refl _)] at hread⟩

/-! ## random variables -/

instance : LawfulJsonForm Range where
  faithful r := ⟨Json.regular_ofFields (by simp), by
    show (do return (⟨← ofJson? (toJson r.values)⟩ : Range)) = some r
    simp⟩

instance : LawfulJsonForm Atom where
  faithful a := ⟨Json.regular_ofFields (by simp), by
    show (do return (⟨← ofJson? (toJson a.functor), ← ofJson? (toJson a.terms),
      ← ofJson? (toJson a.range)⟩ : Atom)) = some a
    simp⟩

instance : LawfulJsonForm CountingFormula where
  faithful f := ⟨Json.regular_ofFields (by simp), by
    show (do return (⟨← ofJson? (toJson f.bound), ← ofJson? (toJson f.inner),
      ← ofJson? (toJson f.constraints)⟩ : CountingFormula)) = some f
    simp⟩

instance : LawfulJsonForm Prv where
  faithful
    | .atom a => ⟨Json.regular_ofFields (by simp), by
        show (ofJson? (toJson a)).map Prv.atom = some (.atom a)
        simp⟩
    | .count f => ⟨Json.regular_ofFields (by simp), by
        show (ofJson? (toJson f)).map Prv.count = some (.count f)
        simp⟩

instance : LawfulJsonForm PrvSet where
  faithful s := ⟨Json.regular_ofFields (by simp), by
    show (do return (⟨← ofJson? (toJson s.prv), ← ofJson? (toJson s.constraints)⟩ : PrvSet)) = some s
    simp⟩

instance : LawfulJsonForm Operator where
  faithful op := ⟨.string op.jsonName, by cases op <;> rfl⟩

/-! ## parfactors -/

/-- a float has a form unless its text is not read as the float -/
theorem faithful_float {x : Float} (h : Json.float? (Json.ofFloat x) = some x) : Faithful x where
  regular := by
    show (Json.ofFloat x).Regular
    unfold Json.ofFloat
    split
    · rename_i ht
      exact .number (Json.numeral_of_compact? ht)
    · exact .null
  ofJson?_eq := h

section

variable {K : Type} [JsonForm K]

theorem faithful_factor {t : Factor K} (h : ∀ x ∈ t.toList, Faithful x) : Faithful t := by
  have hvalues := faithful_list h
  refine ⟨Json.regular_ofFields (by simpa using hvalues.regular), ?_⟩
  show (do
    let values : List K ← ofJson? (toJson t.toList)
    return (⟨values.toArray⟩ : Factor K)) = some t
  rw [hvalues.ofJson?_eq]
  rfl

theorem faithful_parfactor {p : Parfactor K} (h : ∀ x ∈ p.factor.toList, Faithful x) :
    Faithful p := by
  have hfactor := faithful_factor h
  refine ⟨Json.regular_ofFields (by simpa using hfactor.regular), ?_⟩
  show (do return (⟨← ofJson? (toJson p.constraints), ← ofJson? (toJson p.prvs),
    ← ofJson? (toJson p.factor)⟩ : Parfactor K)) = some p
  simp [hfactor.ofJson?_eq]

theorem faithful_aggregation {a : Aggregation K} (h : ∀ x ∈ a.factor.toList, Faithful x) :
    Faithful a := by
  have hfactor := faithful_factor h
  refine ⟨Json.regular_ofFields (by simpa using hfactor.regular), ?_⟩
  show (do return (⟨← ofJson? (toJson a.constraints), ← ofJson? (toJson a.parent),
    ← ofJson? (toJson a.child), ← ofJson? (toJson a.context), ← ofJson? (toJson a.factor),
    ← ofJson? (toJson a.operator), ← ofJson? (toJson a.extra)⟩ : Aggregation K)) = some a
  simp [hfactor.ofJson?_eq]

theorem faithful_component {c : Component K} (h : ∀ x ∈ c.factor.toList, Faithful x) :
    Faithful c := by
  cases c with
  | standard p =>
    have hp := faithful_parfactor h
    refine ⟨Json.regular_ofFields (by simpa using hp.regular), ?_⟩
    show (ofJson? (toJson p)).map Component.standard = some (.standard p)
    rw [hp.ofJson?_eq]
    rfl
  | aggregation a =>
    have ha := faithful_aggregation h
    refine ⟨Json.regular_ofFields (by simpa using ha.regular), ?_⟩
    show (ofJson? (toJson a)).map Component.aggregation = some (.aggregation a)
    rw [ha.ofJson?_eq]
    rfl

end

end LiftedElimination
