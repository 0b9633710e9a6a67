import LiftedElimination.Json.Value

/-!
# Reading JSON

`Json.read?` reads one value with nothing but blanks around it.

* `readString?`   the characters of a string and what follows it;
* `readNumber?`   the text of a number and what follows it;
* `readValue?`    a value and what follows it, within a bound on the depth and the number of items,
                  for which the length of the text suffices.
-/

namespace LiftedElimination

namespace Json

def isBlank (c : Char) : Bool := c = ' ' || c = '\n' || c = '\t' || c = '\r'

def skipBlanks (cs : List Char) : List Char := cs.dropWhile isBlank

/-! ## strings -/

def hexValue? (c : Char) : Option Nat :=
  let n := c.toNat
  if 48 ≤ n ∧ n ≤ 57 then some (n - 48)
  else if 65 ≤ n ∧ n ≤ 70 then some (n - 55)
  else if 97 ≤ n ∧ n ≤ 102 then some (n - 87)
  else none

/-- the number of four hexadecimal digits -/
def hexNumber? (a b c d : Char) : Option Nat := do
  let a ← hexValue? a
  let b ← hexValue? b
  let c ← hexValue? c
  let d ← hexValue? d
  return ((a * 16 + b) * 16 + c) * 16 + d

/-- the code of a character behind a backslash -/
def simpleEscape? (c : Char) : Option Nat :=
  match c with
  | '\x22' => some 34
  | '\x5c' => some 92
  | '/' => some 47
  | 'b' => some 8
  | 'f' => some 12
  | 'n' => some 10
  | 'r' => some 13
  | 't' => some 9
  | _ => none

/-- the codes up to the closing quote, and what follows it -/
def readCodes? : List Char → Option (List Nat × List Char)
  | [] => none
  | '\x22' :: cs => some ([], cs)
  | '\x5c' :: 'u' :: a :: b :: c :: d :: cs =>
    match hexNumber? a b c d with
    | none => none
    | some n => (readCodes? cs).map fun r => (n :: r.1, r.2)
  | '\x5c' :: e :: cs =>
    match simpleEscape? e with
    | none => none
    | some n => (readCodes? cs).map fun r => (n :: r.1, r.2)
  | c :: cs =>
    if c.toNat < 32 ∨ c = '\x5c' then none
    else (readCodes? cs).map fun r => (c.toNat :: r.1, r.2)

def isHighSurrogate (n : Nat) : Bool := 0xD800 ≤ n && n ≤ 0xDBFF

def isLowSurrogate (n : Nat) : Bool := 0xDC00 ≤ n && n ≤ 0xDFFF

/-- the characters of the codes, two surrogates making one; nothing if a surrogate is alone -/
def charsOf? : List Nat → Option (List Char)
  | [] => some []
  | [n] => if isHighSurrogate n || isLowSurrogate n then none else some [Char.ofNat n]
  | n :: k :: ns =>
    if isHighSurrogate n then
      if isLowSurrogate k then
        (charsOf? ns).map (Char.ofNat (0x10000 + (n - 0xD800) * 1024 + (k - 0xDC00)) :: ·)
      else none
    else if isLowSurrogate n then none
    else (charsOf? (k :: ns)).map (Char.ofNat n :: ·)

/-- the string behind an opening quote, and what follows it -/
def readString? (cs : List Char) : Option (Option String × List Char) :=
  (readCodes? cs).map fun r => ((charsOf? r.1).map String.ofList, r.2)

/-! ## numbers -/

def digits (cs : List Char) : List Char × List Char :=
  (cs.takeWhile Char.isDigit, cs.dropWhile Char.isDigit)

/-- the digits in front of the point: a zero, or digits that do not start with one -/
def readWhole? : List Char → Option (List Char × List Char)
  | '0' :: cs => some (['0'], cs)
  | c :: cs => if c.isDigit then some (digits (c :: cs)) else none
  | [] => none

/-- a point with at least one digit behind it, or nothing -/
def readFraction? : List Char → Option (List Char × List Char)
  | '.' :: cs => if (digits cs).1.isEmpty then none else some ('.' :: (digits cs).1, (digits cs).2)
  | cs => some ([], cs)

/-- an exponent with an optional sign and at least one digit, or nothing -/
def readExponent? : List Char → Option (List Char × List Char)
  | c :: cs =>
    if c = 'e' ∨ c = 'E' then
      let (sign, rest) :=
        match cs with
        | '+' :: cs => (['+'], cs)
        | '-' :: cs => (['-'], cs)
        | cs => ([], cs)
      if (digits rest).1.isEmpty then none
      else some (c :: sign ++ (digits rest).1, (digits rest).2)
    else some ([], c :: cs)
  | [] => some ([], [])

/-- the text of a number, and what follows it -/
def readNumber? (cs : List Char) : Option (String × List Char) := do
  let (sign, cs) :=
    match cs with
    | '-' :: cs => (['-'], cs)
    | cs => ([], cs)
  let (whole, cs) ← readWhole? cs
  let (fraction, cs) ← readFraction? cs
  let (exponent, cs) ← readExponent? cs
  return (String.ofList (sign ++ whole ++ fraction ++ exponent), cs)

/-! ## values -/

mutual

/-- a value behind blanks, and what follows it -/
def readValue? : Nat → List Char → Option (Json × List Char)
  | 0, _ => none
  | n + 1, cs =>
    match skipBlanks cs with
    | 'n' :: 'u' :: 'l' :: 'l' :: cs => some (null, cs)
    | 't' :: 'r' :: 'u' :: 'e' :: cs => some (bool true, cs)
    | 'f' :: 'a' :: 'l' :: 's' :: 'e' :: cs => some (bool false, cs)
    | '\x22' :: cs => (readString? cs).map fun r => (string r.1, r.2)
    | '[' :: cs =>
      match skipBlanks cs with
      | ']' :: cs => some (array [], cs)
      | cs => (readItems? n cs).map fun r => (array r.1, r.2)
    | '\x7b' :: cs =>
      match skipBlanks cs with
      | '\x7d' :: cs => some (object [], cs)
      | cs => (readFields? n cs).map fun r => (object r.1, r.2)
    | cs => (readNumber? cs).map fun r => (number r.1, r.2)

/-- at least one item, the closing bracket, and what follows it -/
def readItems? : Nat → List Char → Option (List Json × List Char)
  | 0, _ => none
  | n + 1, cs =>
    match readValue? n cs with
    | none => none
    | some (j, cs) =>
      match skipBlanks cs with
      | ',' :: cs => (readItems? n cs).map fun r => (j :: r.1, r.2)
      | ']' :: cs => some ([j], cs)
      | _ => none

/-- at least one field, the closing brace, and what follows it -/
def readFields? : Nat → List Char → Option (List (Option String × Json) × List Char)
  | 0, _ => none
  | n + 1, cs =>
    match skipBlanks cs with
    | '\x22' :: cs =>
      match readString? cs with
      | none => none
      | some (key, cs) =>
        match skipBlanks cs with
        | ':' :: cs =>
          match readValue? n cs with
          | none => none
          | some (j, cs) =>
            match skipBlanks cs with
            | ',' :: cs => (readFields? n cs).map fun r => ((key, j) :: r.1, r.2)
            | '\x7d' :: cs => some ([(key, j)], cs)
            | _ => none
        | _ => none
    | _ => none

end

/-- the value that the text consists of -/
def read? (s : String) : Option Json :=
  let cs := s.toList
  match readValue? (2 * cs.length + 2) cs with
  | none => none
  | some (j, rest) => if (skipBlanks rest).isEmpty then some j else none

end Json

end LiftedElimination
