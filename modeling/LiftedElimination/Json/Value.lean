/-!
# JSON values

* `Json`        a value; an object keeps the order and the repetition of its keys, and a number
                keeps its text;
* `Json.text`   the value without blanks.

A string is missing where its escapes do not stand for characters (a surrogate alone): such a string
may be skipped but not used.
-/

namespace LiftedElimination

/-- a JSON value -/
inductive Json where
  | null
  | bool (b : Bool)
  | number (text : String)
  | string (s : Option String)
  | array (items : List Json)
  | object (fields : List (Option String × Json))
deriving Inhabited

namespace Json

def ofString (s : String) : Json := string (some s)

def ofNat (n : Nat) : Json := number (Nat.repr n)

/-- an object with the given fields -/
def ofFields (fields : List (String × Json)) : Json :=
  object (fields.map fun f => (some f.1, f.2))

def string? : Json → Option String
  | string s => s
  | _ => none

def array? : Json → Option (List Json)
  | array items => some items
  | _ => none

/-- the value of the first field with this key -/
def field? (j : Json) (key : String) : Option Json :=
  match j with
  | object fields => (fields.find? (·.1 = some key)).map Prod.snd
  | _ => none

/-! ## text -/

def hexDigit (n : Nat) : Char := Char.ofNat (if n < 10 then 48 + n else 87 + n)

/-- a character inside a string: quote, backslash and control characters are escaped -/
def escape (c : Char) : List Char :=
  let n := c.toNat
  if n = 34 then ['\x5c', '\x22']
  else if n = 92 then ['\x5c', '\x5c']
  else if n = 8 then ['\x5c', 'b']
  else if n = 9 then ['\x5c', 't']
  else if n = 10 then ['\x5c', 'n']
  else if n = 12 then ['\x5c', 'f']
  else if n = 13 then ['\x5c', 'r']
  else if n < 32 then ['\x5c', 'u', '0', '0', hexDigit (n / 16), hexDigit (n % 16)]
  else [c]

def quoted (s : String) : String := "\x22" ++ String.ofList (s.toList.flatMap escape) ++ "\x22"

/-- the string of a key or value; a missing one is written as an empty string -/
def quotedOrEmpty (s : Option String) : String := quoted (s.getD "")

mutual

/-- `acc` followed by the value without blanks -/
def write (acc : String) : Json → String
  | null => acc ++ "null"
  | bool b => acc ++ if b then "true" else "false"
  | number t => acc ++ t
  | string s => acc ++ quotedOrEmpty s
  | array items => writeItems (acc ++ "[") items ++ "]"
  | object fields => writeFields (acc ++ "\x7b") fields ++ "\x7d"

/-- `acc` followed by the values with commas between them -/
def writeItems (acc : String) : List Json → String
  | [] => acc
  | [j] => j.write acc
  | j :: js => writeItems (j.write acc ++ ",") js

/-- `acc` followed by the fields with commas between them -/
def writeFields (acc : String) : List (Option String × Json) → String
  | [] => acc
  | [(k, j)] => j.write (acc ++ quotedOrEmpty k ++ ":")
  | (k, j) :: fs => writeFields (j.write (acc ++ quotedOrEmpty k ++ ":") ++ ",") fs

end

/-- the value without blanks -/
def text (j : Json) : String := j.write ""

end Json

end LiftedElimination
