import LiftedElimination.Json.Reader

/-!
# JSON forms of records and variants

* `JsonForm α`       how values of `α` are written and read;
* `Json.record?`     the fields of a record, written as an object in any order with other fields
                     beside them, or as an array in the order of the fields;
* `Json.variant?`    the name and the content of a variant: an object with this one field, or the
                     name alone.
-/

namespace LiftedElimination

/-- a JSON form of the values of `α` -/
class JsonForm (α : Type) where
  toJson : α → Json
  ofJson? : Json → Option α

export JsonForm (toJson ofJson?)

namespace Json

/-- the elements in order, if each has a value -/
def mapAll? {α : Type} (f : Json → Option α) : List Json → Option (List α)
  | [] => some []
  | j :: js =>
    match f j with
    | none => none
    | some a => (mapAll? f js).map (a :: ·)

/-- the only field with this key -/
def onlyField? (fields : List (Option String × Json)) (key : String) : Option Json :=
  match fields.filter (·.1 = some key) with
  | [f] => some f.2
  | _ => none

/-- the fields with the given names, each exactly once; every key has to be a proper string -/
def record? (names : List String) (j : Json) : Option (List Json) :=
  match j with
  | object fields =>
    if fields.any (·.1.isNone) then none
    else mapAll? (fun k => (string? k).bind (onlyField? fields)) (names.map ofString)
  | array items => if items.length = names.length then some items else none
  | _ => none

/-- the name of a variant, and its content if there is any -/
def variant? : Json → Option (String × Option Json)
  | string (some s) => some (s, none)
  | object [(some key, j)] => some (key, some j)
  | _ => none

/-- a variant without content is its name, or has `null` for content -/
def isUnit : Option Json → Bool
  | none | some null => true
  | _ => false

end Json

instance : JsonForm String where
  toJson := Json.ofString
  ofJson? := Json.string?

instance {α : Type} [JsonForm α] : JsonForm (List α) where
  toJson l := .array (l.map toJson)
  ofJson? j := j.array?.bind (Json.mapAll? ofJson?)

end LiftedElimination
