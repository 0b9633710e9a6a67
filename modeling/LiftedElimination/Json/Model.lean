import LiftedElimination.Json.Form
import LiftedElimination.Json.Number
import LiftedElimination.Operation
import LiftedElimination.Scalar.Float

/-!
# JSON forms of the model

Every type has the form of its fields in order; a type with one unnamed field has the form of that
field.  Reading checks the shape alone: populations may repeat individuals, and tables may have any
length.  Sets may be listed in any order, and a substitution that binds a variable twice is refused.
-/

namespace LiftedElimination

/-! ## terms -/

instance : JsonForm Constant where
  toJson c := toJson c.name
  ofJson? j := (ofJson? j).map Constant.mk

instance : JsonForm Population where
  toJson p := .ofFields [("individuals", toJson p.individuals)]
  ofJson? j := do
    let [individuals] ← j.record? ["individuals"] | none
    return ⟨← ofJson? individuals⟩

instance : JsonForm LogVar where
  toJson x := .ofFields [("name", toJson x.name), ("population", toJson x.population)]
  ofJson? j := do
    let [name, population] ← j.record? ["name", "population"] | none
    return ⟨← ofJson? name, ← ofJson? population⟩

instance : JsonForm Term where
  toJson
    | .var x => .ofFields [("Variable", toJson x)]
    | .const c => .ofFields [("Constant", toJson c)]
  ofJson? j :=
    match j.variant? with
    | some ("Variable", some j) => (ofJson? j).map Term.var
    | some ("Constant", some j) => (ofJson? j).map Term.const
    | _ => none

/-! ## constraints and substitutions -/

instance : JsonForm Constraint where
  toJson c := .ofFields [("first", toJson c.first), ("second", toJson c.second)]
  ofJson? j := do
    let [first, second] ← j.record? ["first", "second"] | none
    return ⟨← ofJson? first, ← ofJson? second⟩

instance : JsonForm ConstraintSet where
  toJson cs := toJson cs.toList
  ofJson? j := (ofJson? j).map SortedSet.ofList

instance : JsonForm Binding where
  toJson b := .ofFields [("source", toJson b.source), ("target", toJson b.target)]
  ofJson? j := do
    let [source, target] ← j.record? ["source", "target"] | none
    return ⟨← ofJson? source, ← ofJson? target⟩

instance : JsonForm Substitution where
  toJson s := toJson s.bindings
  ofJson? j := do
    let bindings ← ofJson? j
    match Substitution.ofBindings bindings with
    | .error _ => none
    | .ok s => return s

/-! ## random variables -/

instance : JsonForm Range where
  toJson r := .ofFields [("values", toJson r.values)]
  ofJson? j := do
    let [values] ← j.record? ["values"] | none
    return ⟨← ofJson? values⟩

instance : JsonForm Atom where
  toJson a := .ofFields
    [("functor", toJson a.functor), ("terms", toJson a.terms), ("range", toJson a.range)]
  ofJson? j := do
    let [functor, terms, range] ← j.record? ["functor", "terms", "range"] | none
    return ⟨← ofJson? functor, ← ofJson? terms, ← ofJson? range⟩

instance : JsonForm Histogram where
  toJson h := .array (h.counts.map Json.ofNat)
  ofJson? j := (j.array?.bind (Json.mapAll? (Json.nat? maxWord))).map Histogram.mk

instance : JsonForm CountingFormula where
  toJson f := .ofFields
    [("bound", toJson f.bound), ("inner", toJson f.inner), ("constraints", toJson f.constraints)]
  ofJson? j := do
    let [bound, inner, constraints] ← j.record? ["bound", "inner", "constraints"] | none
    return ⟨← ofJson? bound, ← ofJson? inner, ← ofJson? constraints⟩

instance : JsonForm Prv where
  toJson
    | .atom a => .ofFields [("Standard", toJson a)]
    | .count f => .ofFields [("Counting", toJson f)]
  ofJson? j :=
    match j.variant? with
    | some ("Standard", some j) => (ofJson? j).map Prv.atom
    | some ("Counting", some j) => (ofJson? j).map Prv.count
    | _ => none

instance : JsonForm PrvSet where
  toJson s := .ofFields [("prv", toJson s.prv), ("constraints", toJson s.constraints)]
  ofJson? j := do
    let [prv, constraints] ← j.record? ["prv", "constraints"] | none
    return ⟨← ofJson? prv, ← ofJson? constraints⟩

/-! ## numbers and kinds -/

instance : JsonForm Float where
  toJson := Json.ofFloat
  ofJson? := Json.float?

instance : JsonForm Cost where
  toJson
    | .finite n => .ofFields [("Finite", .ofNat n)]
    | .infinite => toJson "Infinite"
  ofJson? j :=
    match j.variant? with
    | some ("Finite", some j) => (j.nat? Cost.limit).map Cost.finite
    | some ("Infinite", content) => if Json.isUnit content then some .infinite else none
    | _ => none

def Operator.jsonName : Operator → String
  | .disjunction => "Or"
  | .conjunction => "And"
  | .maximum => "Max"
  | .minimum => "Min"

def OperationKind.jsonName : OperationKind → String
  | .convertAggregation => "ConvertAggregation"
  | .shatter => "Shatter"
  | .countingConvert => "CountingConvert"
  | .globalSumOut => "GlobalSumOut"
  | .fullExpand => "FullExpand"
  | .propositionalize => "Propositionalize"

/-- the listed value whose name the variant has -/
def Json.unitVariant? {α : Type} (name : α → String) (all : List α) (j : Json) : Option α :=
  match j.variant? with
  | some (key, content) =>
    if Json.isUnit content then all.find? (fun a => name a = key) else none
  | none => none

instance : JsonForm Operator where
  toJson op := toJson op.jsonName
  ofJson? := Json.unitVariant? Operator.jsonName [.disjunction, .conjunction, .maximum, .minimum]

instance : JsonForm OperationKind where
  toJson k := toJson k.jsonName
  ofJson? := Json.unitVariant? OperationKind.jsonName OperationKind.all

/-! ## parfactors -/

section

variable {K : Type} [JsonForm K]

instance : JsonForm (Factor K) where
  toJson t := .ofFields [("values", toJson t.toList)]
  ofJson? j := do
    let [values] ← j.record? ["values"] | none
    let values : List K ← ofJson? values
    return ⟨values.toArray⟩

instance : JsonForm (Parfactor K) where
  toJson p := .ofFields
    [("constraints", toJson p.constraints), ("prvs", toJson p.prvs), ("factor", toJson p.factor)]
  ofJson? j := do
    let [constraints, prvs, factor] ← j.record? ["constraints", "prvs", "factor"] | none
    return ⟨← ofJson? constraints, ← ofJson? prvs, ← ofJson? factor⟩

instance : JsonForm (Aggregation K) where
  toJson a := .ofFields
    [("constraints", toJson a.constraints), ("parent", toJson a.parent),
      ("child", toJson a.child), ("context", toJson a.context), ("factor", toJson a.factor),
      ("operator", toJson a.operator), ("extra", toJson a.extra)]
  ofJson? j := do
    let [constraints, parent, child, context, factor, operator, extra] ←
      j.record? ["constraints", "parent", "child", "context", "factor", "operator", "extra"]
      | none
    return ⟨← ofJson? constraints, ← ofJson? parent, ← ofJson? child, ← ofJson? context,
      ← ofJson? factor, ← ofJson? operator, ← ofJson? extra⟩

instance : JsonForm (Component K) where
  toJson
    | .standard p => .ofFields [("Standard", toJson p)]
    | .aggregation a => .ofFields [("Aggregation", toJson a)]
  ofJson? j :=
    match j.variant? with
    | some ("Standard", some j) => (ofJson? j).map Component.standard
    | some ("Aggregation", some j) => (ofJson? j).map Component.aggregation
    | _ => none

variable [Scalar K]

/-- equal components collapse into one -/
instance : JsonForm (Distribution K) where
  toJson d := .ofFields [("parfactors", toJson d.toList)]
  ofJson? j := do
    let [components] ← j.record? ["parfactors"] | none
    let components : List (Component K) ← ofJson? components
    return ⟨.ofList components⟩

instance : JsonForm (Marginal K) where
  toJson m := .ofFields
    [("distribution", toJson m.distribution), ("preservable", toJson m.kept)]
  ofJson? j := do
    let [distribution, kept] ← j.record? ["distribution", "preservable"] | none
    return ⟨← ofJson? distribution, ← ofJson? kept⟩

end

/-- the JSON text of a value -/
def writeJson {α : Type} [JsonForm α] (a : α) : String := (toJson a).text

/-- the value of a JSON text -/
def readJson? {α : Type} [JsonForm α] (s : String) : Option α := (Json.read? s).bind ofJson?

end LiftedElimination
