import LiftedElimination.Proofs.Numeral

/-!
# Reading a JSON text back

A value is regular if all its strings are there and all its numbers have the text of a number.  The
text of a regular value reads back as the value.

* `chars`, `toList_write`   the characters of a value, part by part;
* `Reads`                   the characters of a value are read back, whatever follows them, with
                            twice their number for a bound;
* `readItems?_chars`, `readFields?_chars`   arrays and objects are read back if their parts are;
* `read?_text`              **the text of a regular value reads back**.
-/

namespace LiftedElimination

namespace Json

/-! ## characters -/

/-- a string in quotes -/
def quotedChars (s : String) : List Char := '\x22' :: (s.toList.flatMap escape ++ ['\x22'])

theorem toList_quoted (s : String) : (quoted s).toList = quotedChars s := by
  rw [quoted, String.toList_append, String.toList_append]
  exact congrArg ('\x22' :: · ++ ['\x22']) String.toList_ofList

mutual

/-- the characters of a value -/
def chars : Json → List Char
  | null => ['n', 'u', 'l', 'l']
  | bool true => ['t', 'r', 'u', 'e']
  | bool false => ['f', 'a', 'l', 's', 'e']
  | number t => t.toList
  | string s => quotedChars (s.getD "")
  | array items => '[' :: itemChars items
  | object fields => '\x7b' :: fieldChars fields

/-- the items of an array and its closing bracket -/
def itemChars : List Json → List Char
  | [] => [']']
  | [j] => j.chars ++ [']']
  | j :: js => j.chars ++ ',' :: itemChars js

/-- the fields of an object and its closing brace -/
def fieldChars : List (Option String × Json) → List Char
  | [] => ['\x7d']
  | [(k, j)] => quotedChars (k.getD "") ++ ':' :: (j.chars ++ ['\x7d'])
  | (k, j) :: fs => quotedChars (k.getD "") ++ ':' :: (j.chars ++ ',' :: fieldChars fs)

end

mutual

theorem toList_write (acc : String) : ∀ j : Json, (j.write acc).toList = acc.toList ++ j.chars
  | null | bool true | bool false | number t => by
    rw [write, String.toList_append]
    rfl
  | string s => by
    rw [write, String.toList_append, quotedOrEmpty, toList_quoted]
    rfl
  | array items => by
    have hitems := toList_writeItems (acc ++ "[") items
    rw [String.toList_append, List.append_assoc] at hitems
    rw [write, String.toList_append]
    exact hitems
  | object fields => by
    have hfields := toList_writeFields (acc ++ "\x7b") fields
    rw [String.toList_append, List.append_assoc] at hfields
    rw [write, String.toList_append]
    exact hfields

theorem toList_writeItems (acc : String) :
    ∀ items : List Json, (writeItems acc items).toList ++ [']'] = acc.toList ++ itemChars items
  | [] => rfl
  | [j] => by rw [writeItems, toList_write acc j, List.append_assoc, itemChars]
  | j :: k :: js => by
    rw [writeItems, toList_writeItems _ (k :: js), String.toList_append, toList_write acc j,
      List.append_assoc, List.append_assoc]
    · rfl
    · nofun

theorem toList_writeFields (acc : String) : ∀ fields : List (Option String × Json),
    (writeFields acc fields).toList ++ ['\x7d'] = acc.toList ++ fieldChars fields
  | [] => rfl
  | [(k, j)] => by
    rw [writeFields, toList_write _ j, String.toList_append, String.toList_append, quotedOrEmpty,
      toList_quoted, List.append_assoc, List.append_assoc, List.append_assoc, fieldChars]
    rfl
  | (k, j) :: f :: fs => by
    rw [writeFields, toList_writeFields _ (f :: fs), String.toList_append, toList_write _ j,
      String.toList_append, String.toList_append, quotedOrEmpty, toList_quoted, List.append_assoc,
      List.append_assoc, List.append_assoc, List.append_assoc]
    · rfl
    · nofun

end

theorem toList_text (j : Json) : j.text.toList = j.chars := toList_write "" j

/-! ## strings -/

/-- the codes of the control characters that are escaped by number -/
theorem hexNumber?_hexDigit : ∀ n < 32,
    hexNumber? '0' '0' (hexDigit (n / 16)) (hexDigit (n % 16)) = some n := by
  decide

theorem readCodes?_simple {e : Char} {n : Nat} (he : simpleEscape? e = some n) (cs : List Char) :
    readCodes? ('\x5c' :: e :: cs) = (readCodes? cs).map fun r => (n :: r.1, r.2) := by
  rw [readCodes?.eq_4, he]
  rintro a b c d cs rfl -
  cases he

/-- an escaped character is read as its code -/
theorem readCodes?_escape (c : Char) (cs : List Char) :
    readCodes? (escape c ++ cs) = (readCodes? cs).map fun r => (c.toNat :: r.1, r.2) := by
  have hsimple : ∀ {e : Char} {n : Nat}, c.toNat = n → simpleEscape? e = some n →
      readCodes? (['\x5c', e] ++ cs) = (readCodes? cs).map fun r => (c.toNat :: r.1, r.2) :=
    fun hn he => hn ▸ readCodes?_simple he cs
  unfold escape
  dsimp only
  -- seven characters have an escape of their own
  iterate 7
    split
    · rename_i h
      exact hsimple h rfl
  split
  · rename_i h
    simp only [List.cons_append, List.nil_append]
    rw [readCodes?.eq_3, hexNumber?_hexDigit _ h]
  · rename_i hquote hbackslash _ _ _ _ _ hcontrol
    have hne : c ≠ '\x5c' := fun h => hbackslash (congrArg Char.toNat h)
    rw [List.singleton_append, readCodes?.eq_5, if_neg (not_or.mpr ⟨hcontrol, hne⟩)]
    · exact fun h => hquote (congrArg Char.toNat h)
    · exact fun _ _ _ _ _ h => absurd h hne
    · exact fun _ _ h => absurd h hne

theorem readCodes?_flatMap (cs rest : List Char) :
    readCodes? (cs.flatMap escape ++ '\x22' :: rest) = some (cs.map Char.toNat, rest) := by
  induction cs with
  | nil => rfl
  | cons c cs ih =>
    rw [List.flatMap_cons, List.append_assoc, readCodes?_escape, ih]
    rfl

/-- a character is no surrogate -/
theorem not_surrogate (c : Char) :
    isHighSurrogate c.toNat = false ∧ isLowSurrogate c.toNat = false := by
  have hvalid : c.toNat < 0xd800 ∨ 0xdfff < c.toNat ∧ c.toNat < 0x110000 := c.valid
  constructor
  · rw [isHighSurrogate, Bool.and_eq_false_iff, decide_eq_false_iff_not, decide_eq_false_iff_not]
    omega
  · rw [isLowSurrogate, Bool.and_eq_false_iff, decide_eq_false_iff_not, decide_eq_false_iff_not]
    omega

theorem charsOf?_map_toNat (cs : List Char) : charsOf? (cs.map Char.toNat) = some cs := by
  induction cs with
  | nil => rfl
  | cons c cs ih =>
    obtain ⟨hhigh, hlow⟩ := not_surrogate c
    cases cs with
    | nil => rw [List.map_singleton, charsOf?, hhigh, hlow, Char.ofNat_toNat]; rfl
    | cons d cs =>
      rw [List.map_cons, List.map_cons, charsOf?, ← List.map_cons, ih, hhigh, hlow, Char.ofNat_toNat]
      rfl

/-- **A quoted string reads back.** -/
theorem readString?_append (s : String) (rest : List Char) :
    readString? (s.toList.flatMap escape ++ '\x22' :: rest) = some (some s, rest) := by
  rw [readString?, readCodes?_flatMap, Option.map_some, charsOf?_map_toNat, Option.map_some,
    String.ofList_toList]

/-! ## values -/

/-- all strings are there, and all numbers have the text of a number -/
inductive Regular : Json → Prop where
  | null : Regular null
  | bool (b : Bool) : Regular (bool b)
  | number {t : String} (h : Numeral t.toList) : Regular (number t)
  | string (s : String) : Regular (string (some s))
  | array {items : List Json} (h : ∀ j ∈ items, Regular j) : Regular (array items)
  | object {fields : List (Option String × Json)} (hkeys : ∀ f ∈ fields, f.1.isSome = true)
    (h : ∀ f ∈ fields, Regular f.2) : Regular (object fields)

/-- the characters of the value are read back, whatever follows them -/
def Reads (j : Json) : Prop := ∀ n rest, 2 * j.chars.length ≤ n → Ends rest →
  readValue? n (j.chars ++ rest) = some (j, rest)

theorem skipBlanks_cons {c : Char} (hc : isBlank c = false) (cs : List Char) :
    skipBlanks (c :: cs) = c :: cs := List.dropWhile_cons_of_neg (Bool.eq_false_iff.mp hc)

/-- what a number starts with is neither a blank nor a closing bracket -/
theorem not_blank_of_isDigit {c : Char} (hc : c.isDigit = true ∨ c = '-') :
    isBlank c = false ∧ c ≠ ']' := by
  have hne : ∀ d : Char, d.isDigit = false → d ≠ '-' → c ≠ d := by
    rintro d hdigit hminus rfl
    exact hc.elim (Bool.eq_false_iff.mp hdigit) hminus
  refine ⟨?_, hne _ (by decide) (by decide)⟩
  simp [isBlank, hne]

/-- a value starts with neither a blank nor a closing bracket -/
theorem Regular.exists_cons {j : Json} (h : j.Regular) :
    ∃ c cs, j.chars = c :: cs ∧ isBlank c = false ∧ c ≠ ']' := by
  cases h with
  | null => exact ⟨_, _, rfl, rfl, by decide⟩
  | bool b => cases b <;> exact ⟨_, _, rfl, rfl, by decide⟩
  | number h =>
    obtain ⟨c, cs, heq, hc⟩ := h.exists_cons
    exact ⟨c, cs, heq, not_blank_of_isDigit hc⟩
  | string s => exact ⟨_, _, rfl, rfl, by decide⟩
  | array h => exact ⟨_, _, rfl, rfl, by decide⟩
  | object hkeys h => exact ⟨_, _, rfl, rfl, by decide⟩

theorem ends_comma (cs : List Char) : Ends (',' :: cs) := fun _ hc => .inl (Option.some.inj hc).symm

theorem ends_bracket (cs : List Char) : Ends (']' :: cs) :=
  fun _ hc => .inr (.inl (Option.some.inj hc).symm)

theorem ends_brace (cs : List Char) : Ends ('\x7d' :: cs) :=
  fun _ hc => .inr (.inr (Option.some.inj hc).symm)

/-! ### one step of the reader -/

variable {n : Nat} {j : Json} {c : Char} {cs ds es : List Char}

theorem readValue?_string (n : Nat) (cs : List Char) :
    readValue? (n + 1) ('\x22' :: cs) = (readString? cs).map fun r => (string r.1, r.2) := rfl

theorem readValue?_array (hblank : isBlank c = false) (hc : c ≠ ']') :
    readValue? (n + 1) ('[' :: c :: cs) = (readItems? n (c :: cs)).map fun r => (array r.1, r.2) := by
  rw [readValue?, skipBlanks_cons (by decide)]
  simp only [skipBlanks_cons hblank]
  split
  · rename_i h
    exact absurd (List.cons.inj h).1 hc
  · rfl

theorem readValue?_object (n : Nat) (cs : List Char) : readValue? (n + 1) ('\x7b' :: '\x22' :: cs)
    = (readFields? n ('\x22' :: cs)).map fun r => (object r.1, r.2) := rfl

theorem readItems?_comma (h : readValue? n cs = some (j, ',' :: ds)) :
    readItems? (n + 1) cs = (readItems? n ds).map fun r => (j :: r.1, r.2) := by
  rw [readItems?, h]
  rfl

theorem readItems?_bracket (h : readValue? n cs = some (j, ']' :: ds)) :
    readItems? (n + 1) cs = some ([j], ds) := by
  rw [readItems?, h]
  rfl

theorem readFields?_comma {key : Option String} (hkey : readString? cs = some (key, ':' :: ds))
    (h : readValue? n ds = some (j, ',' :: es)) : readFields? (n + 1) ('\x22' :: cs)
      = (readFields? n es).map fun r => ((key, j) :: r.1, r.2) := by
  rw [readFields?, skipBlanks_cons (by decide)]
  simp (disch := decide) only [hkey, h, skipBlanks_cons]

theorem readFields?_brace {key : Option String} (hkey : readString? cs = some (key, ':' :: ds))
    (h : readValue? n ds = some (j, '\x7d' :: es)) :
    readFields? (n + 1) ('\x22' :: cs) = some ([(key, j)], es) := by
  rw [readFields?, skipBlanks_cons (by decide)]
  simp (disch := decide) only [hkey, h, skipBlanks_cons]

/-! ### whole values -/

/-- **The items of an array are read back** if each of them is. -/
theorem readItems?_chars {items : List Json} (hne : items ≠ []) (hitems : ∀ j ∈ items, j.Reads)
    (n : Nat) (rest : List Char) (hn : 2 * (itemChars items).length < n) :
    readItems? n (itemChars items ++ rest) = some (items, rest) := by
  induction items generalizing n with
  | nil => exact absurd rfl hne
  | cons j items ih =>
    obtain ⟨n, rfl⟩ : ∃ k, n = k + 1 := ⟨n - 1, by omega⟩
    have hj := hitems j List.mem_cons_self n
    cases items with
    | nil =>
      have hchars : itemChars [j] = j.chars ++ [']'] := rfl
      rw [hchars, List.length_append] at hn
      rw [hchars, List.append_assoc]
      exact readItems?_bracket (hj _ (by omega) (ends_bracket rest))
    | cons k items =>
      have hchars : itemChars (j :: k :: items) = j.chars ++ ',' :: itemChars (k :: items) := rfl
      rw [hchars, List.length_append, List.length_cons] at hn
      have hitems := ih (List.cons_ne_nil k items)
        (fun i hi => hitems i (List.mem_cons_of_mem _ hi)) n (by omega)
      rw [hchars, List.append_assoc, List.cons_append,
        readItems?_comma (hj _ (by omega) (ends_comma _)), hitems]
      rfl

/-- **The fields of an object are read back** if their values are. -/
theorem readFields?_chars {fields : List (Option String × Json)} (hne : fields ≠ [])
    (hkeys : ∀ f ∈ fields, f.1.isSome = true) (hfields : ∀ f ∈ fields, f.2.Reads)
    (n : Nat) (rest : List Char) (hn : 2 * (fieldChars fields).length < n) :
    readFields? n (fieldChars fields ++ rest) = some (fields, rest) := by
  induction fields generalizing n with
  | nil => exact absurd rfl hne
  | cons f fields ih =>
    obtain ⟨n, rfl⟩ : ∃ k, n = k + 1 := ⟨n - 1, by omega⟩
    obtain ⟨key, j⟩ := f
    obtain ⟨key, rfl⟩ := Option.isSome_iff_exists.mp (hkeys _ List.mem_cons_self)
    have hj : ∀ rest, 2 * j.chars.length ≤ n → Ends rest →
        readValue? n (j.chars ++ rest) = some (j, rest) := hfields _ List.mem_cons_self n
    cases fields with
    | nil =>
      have hchars : fieldChars [(some key, j)]
          = quotedChars key ++ ':' :: (j.chars ++ ['\x7d']) := rfl
      rw [hchars, List.length_append, List.length_cons, List.length_append] at hn
      rw [hchars, quotedChars]
      simp only [List.cons_append, List.append_assoc, List.nil_append]
      exact readFields?_brace (readString?_append key _) (hj _ (by omega) (ends_brace rest))
    | cons g fields =>
      have hchars : fieldChars ((some key, j) :: g :: fields)
          = quotedChars key ++ ':' :: (j.chars ++ ',' :: fieldChars (g :: fields)) := rfl
      rw [hchars, List.length_append, List.length_cons, List.length_append, List.length_cons] at hn
      have hfields := ih (List.cons_ne_nil g fields)
        (fun f hf => hkeys f (List.mem_cons_of_mem _ hf))
        (fun f hf => hfields f (List.mem_cons_of_mem _ hf)) n (by omega)
      rw [hchars, quotedChars]
      simp only [List.cons_append, List.append_assoc, List.nil_append]
      rw [readFields?_comma (readString?_append key _) (hj _ (by omega) (ends_comma _)), hfields]
      rfl

theorem reads_number {t : String} (h : Numeral t.toList) : (number t).Reads := by
  intro n rest hn hrest
  obtain ⟨c, cs, heq, hc⟩ := h.exists_cons
  have hchars : (number t).chars = t.toList := rfl
  have hread := readNumber?_append h hrest
  rw [hchars, heq, List.length_cons] at hn
  obtain ⟨n, rfl⟩ : ∃ k, n = k + 1 := ⟨n - 1, by omega⟩
  rw [hchars, readValue?.eq_2]
  rw [heq, List.cons_append] at hread ⊢
  rw [skipBlanks_cons (not_blank_of_isDigit hc).1]
  -- a digit or a minus starts nothing but a number
  split
  case h_7 => rw [hread, ← heq, Option.map_some, String.ofList_toList]
  all_goals
    rename_i h
    rw [(List.cons.inj h).1] at hc
    rcases hc with hc | hc <;> cases hc

theorem reads_string (s : String) : (string (some s)).Reads := by
  intro n rest hn hrest
  have hchars : (string (some s)).chars = quotedChars s := rfl
  rw [hchars, quotedChars, List.length_cons] at hn
  obtain ⟨n, rfl⟩ : ∃ k, n = k + 1 := ⟨n - 1, by omega⟩
  rw [hchars, quotedChars, List.cons_append, List.append_assoc, List.singleton_append,
    readValue?_string, readString?_append]
  rfl

theorem reads_array {items : List Json} (hregular : ∀ j ∈ items, j.Regular)
    (hitems : ∀ j ∈ items, j.Reads) : (array items).Reads := by
  intro n rest hn hrest
  have hchars : (array items).chars = '[' :: itemChars items := rfl
  rw [hchars, List.length_cons] at hn
  obtain ⟨n, rfl⟩ : ∃ k, n = k + 1 := ⟨n - 1, by omega⟩
  rw [hchars]
  cases items with
  | nil => rfl
  | cons j items =>
    obtain ⟨c, cs, heq, hblank, hc⟩ := (hregular j List.mem_cons_self).exists_cons
    have hstart : ∃ ds, itemChars (j :: items) = c :: ds := by
      cases items with
      | nil => exact ⟨cs ++ [']'], congrArg (· ++ [']']) heq⟩
      | cons k items => exact ⟨_, congrArg (· ++ ',' :: itemChars (k :: items)) heq⟩
    obtain ⟨ds, hds⟩ := hstart
    have hread := readItems?_chars (List.cons_ne_nil j items) hitems n rest (by omega)
    rw [hds, List.cons_append] at hread
    rw [hds, List.cons_append, List.cons_append, readValue?_array hblank hc, hread]
    rfl

theorem reads_object {fields : List (Option String × Json)}
    (hkeys : ∀ f ∈ fields, f.1.isSome = true) (hfields : ∀ f ∈ fields, f.2.Reads) :
    (object fields).Reads := by
  intro n rest hn hrest
  have hchars : (object fields).chars = '\x7b' :: fieldChars fields := rfl
  rw [hchars, List.length_cons] at hn
  obtain ⟨n, rfl⟩ : ∃ k, n = k + 1 := ⟨n - 1, by omega⟩
  rw [hchars]
  cases fields with
  | nil => rfl
  | cons f fields =>
    have hstart : ∃ ds, fieldChars (f :: fields) = '\x22' :: ds := by
      cases fields with
      | nil => exact ⟨_, rfl⟩
      | cons g fields => exact ⟨_, rfl⟩
    obtain ⟨ds, hds⟩ := hstart
    have hread := readFields?_chars (List.cons_ne_nil f fields) hkeys hfields n rest (by omega)
    rw [hds, List.cons_append] at hread
    rw [hds, List.cons_append, List.cons_append, readValue?_object, hread]
    rfl

/-- **Regular values are read back**, whatever follows them. -/
theorem Regular.reads {j : Json} (h : j.Regular) : j.Reads := by
  have hword : ∀ {j : Json}, (∀ n rest, readValue? (n + 1) (j.chars ++ rest) = some (j, rest)) →
      j.chars ≠ [] → j.Reads := by
    intro j hj hne n rest hn _
    have hpos := List.length_pos_of_ne_nil hne
    obtain ⟨n, rfl⟩ : ∃ k, n = k + 1 := ⟨n - 1, by omega⟩
    exact hj n rest
  induction h with
  | null => exact hword (fun n rest => rfl) nofun
  | bool b => cases b <;> exact hword (fun n rest => rfl) nofun
  | number h => exact reads_number h
  | string s => exact reads_string s
  | array h ih => exact reads_array h ih
  | object hkeys _ ih => exact reads_object hkeys ih

/-- **The text of a regular value reads back.** -/
theorem read?_text {j : Json} (h : j.Regular) : read? j.text = some j := by
  have hread := h.reads (2 * j.text.toList.length + 2) [] (by rw [toList_text]; omega) ends_nil
  rw [List.append_nil, ← toList_text] at hread
  rw [read?, hread]
  rfl

end Json

end LiftedElimination
