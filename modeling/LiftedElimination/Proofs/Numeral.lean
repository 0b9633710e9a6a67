import LiftedElimination.Json.Reader
import LiftedElimination.Decimal.Text
import Mathlib.Data.List.Basic

/-!
# Numbers in JSON

A number is a sign, the digits in front of the point, a fraction and an exponent, of which only the
digits have to be there.

* `Numeral`                 the texts of numbers;
* `readNumber?_append`      a number in front of a comma or a bracket is read to its end and no further;
* `numeral_of_compact?`     **the text of a float is a number**.
-/

namespace LiftedElimination

namespace Json

/-! ## the parts of a number -/

/-- digits, and at least one of them -/
def IsDigits (cs : List Char) : Prop := cs ≠ [] ∧ ∀ c ∈ cs, c.isDigit = true

theorem isDigits_zero : IsDigits ['0'] :=
  ⟨List.cons_ne_nil _ _, fun _ hc => List.mem_singleton.mp hc ▸ rfl⟩

/-- the digits in front of the point, which start with a zero only if that is all there is -/
def IsWhole (cs : List Char) : Prop := cs = ['0'] ∨ IsDigits cs ∧ cs.head? ≠ some '0'

/-- a point and digits, or nothing -/
def IsFraction (cs : List Char) : Prop := cs = [] ∨ ∃ ds, IsDigits ds ∧ cs = '.' :: ds

def IsSign (cs : List Char) : Prop := cs = [] ∨ cs = ['-']

/-- an `e` and digits with a sign that may be a plus, or nothing -/
def IsExponent (cs : List Char) : Prop :=
  cs = [] ∨ ∃ sign ds, (IsSign sign ∨ sign = ['+']) ∧ IsDigits ds ∧ cs = 'e' :: (sign ++ ds)

/-- the text of a number -/
structure Numeral (cs : List Char) : Prop where
  exists_parts : ∃ sign whole fraction exponent, IsSign sign ∧ IsWhole whole ∧ IsFraction fraction
    ∧ IsExponent exponent ∧ cs = sign ++ whole ++ fraction ++ exponent

/-- what may follow a value inside another one -/
def Ends (cs : List Char) : Prop := ∀ c ∈ cs.head?, c = ',' ∨ c = ']' ∨ c = '\x7d'

theorem ends_nil : Ends [] := nofun

/-- the text does not go on with a character of the kind `p` -/
def Stops (p : Char → Prop) (cs : List Char) : Prop := ∀ c ∈ cs.head?, ¬ p c

theorem stops_cons {p : Char → Prop} {c : Char} {cs : List Char} (h : ¬ p c) : Stops p (c :: cs) :=
  fun _ hd => Option.some.inj hd ▸ h

theorem Stops.imp {p q : Char → Prop} {cs : List Char} (h : Stops p cs) (hpq : ∀ c, q c → p c) :
    Stops q cs := fun c hc hq => h c hc (hpq c hq)

theorem Ends.stops {p : Char → Prop} {cs : List Char} (h : Ends cs) (hcomma : ¬ p ',')
    (hbracket : ¬ p ']') (hbrace : ¬ p '\x7d') : Stops p cs := by
  intro c hc
  rcases h c hc with rfl | rfl | rfl
  · exact hcomma
  · exact hbracket
  · exact hbrace

/-! ## reading the parts -/

variable {cs rest : List Char}

theorem digits_append (hcs : ∀ c ∈ cs, c.isDigit = true) (hrest : Stops (·.isDigit = true) rest) :
    digits (cs ++ rest) = (cs, rest) := by
  have htake : rest.takeWhile Char.isDigit = [] ∧ rest.dropWhile Char.isDigit = rest := by
    cases rest with
    | nil => exact ⟨rfl, rfl⟩
    | cons c rest =>
      have hc := Bool.eq_false_iff.mpr (hrest c rfl)
      exact ⟨List.takeWhile_cons_of_neg (by simp [hc]), List.dropWhile_cons_of_neg (by simp [hc])⟩
  rw [digits, List.takeWhile_append_of_pos hcs, List.dropWhile_append_of_pos hcs, htake.1, htake.2,
    List.append_nil]

theorem readWhole?_append (hcs : IsWhole cs) (hrest : Stops (·.isDigit = true) rest) :
    readWhole? (cs ++ rest) = some (cs, rest) := by
  rcases hcs with rfl | ⟨⟨hne, hcs⟩, hzero⟩
  · rfl
  · obtain ⟨c, cs, rfl⟩ := List.exists_cons_of_ne_nil hne
    have hc : c ≠ '0' := fun h => hzero (congrArg some h)
    rw [List.cons_append, readWhole?.eq_def]
    split
    · rename_i heq
      exact absurd (List.cons.inj heq).1 hc
    · rename_i heq
      obtain ⟨rfl, rfl⟩ := List.cons.inj heq
      rw [if_pos (hcs _ List.mem_cons_self), ← List.cons_append, digits_append hcs hrest]
    · rename_i heq
      cases heq

theorem readFraction?_append (hcs : IsFraction cs)
    (hrest : Stops (fun c => c.isDigit = true ∨ c = '.') rest) :
    readFraction? (cs ++ rest) = some (cs, rest) := by
  rcases hcs with rfl | ⟨ds, ⟨hne, hds⟩, rfl⟩
  · rw [List.nil_append, readFraction?.eq_def]
    split
    · rename_i rest
      exact absurd (.inr rfl) (hrest '.' rfl)
    · rfl
  · rw [List.cons_append, readFraction?, digits_append hds (hrest.imp fun _ => .inl),
      if_neg (by simpa using hne)]

theorem readExponent?_append (hcs : IsExponent cs) (hrest : Ends rest) :
    readExponent? (cs ++ rest) = some (cs, rest) := by
  have hstops : Stops (·.isDigit = true) rest := hrest.stops nofun nofun nofun
  rcases hcs with rfl | ⟨sign, ds, hsign, ⟨hne, hds⟩, rfl⟩
  · cases rest with
    | nil => rfl
    | cons c rest =>
      have hc : ¬ (c = 'e' ∨ c = 'E') := by
        rcases hrest c rfl with rfl | rfl | rfl <;> decide
      rw [List.nil_append, readExponent?.eq_def]
      dsimp only
      rw [if_neg hc]
  · have hempty : ¬ ds.isEmpty = true := by simpa using hne
    rw [List.cons_append, List.append_assoc]
    rcases hsign with (rfl | rfl) | rfl
    · -- without a sign the first digit must not look like one
      obtain ⟨d, ds, rfl⟩ := List.exists_cons_of_ne_nil hne
      have hd := hds d List.mem_cons_self
      rw [List.nil_append, readExponent?.eq_3, if_pos (.inl rfl), digits_append hds hstops,
        if_neg hempty]
      · rfl
      · rintro cs h
        rw [(List.cons.inj h).1] at hd
        cases hd
      · rintro cs h
        rw [(List.cons.inj h).1] at hd
        cases hd
    · rw [List.singleton_append, readExponent?.eq_2, if_pos (.inl rfl), digits_append hds hstops,
        if_neg hempty]
      rfl
    · rw [List.singleton_append, readExponent?.eq_1, if_pos (.inl rfl), digits_append hds hstops,
        if_neg hempty]
      rfl

/-! ## reading a number -/

theorem IsExponent.stops (hcs : IsExponent cs) (hrest : Ends rest) :
    Stops (fun c => c.isDigit = true ∨ c = '.') (cs ++ rest) := by
  rcases hcs with rfl | ⟨sign, ds, -, -, rfl⟩
  · exact hrest.stops (by decide) (by decide) (by decide)
  · exact stops_cons (by decide)

theorem IsFraction.stops (hcs : IsFraction cs)
    (hrest : Stops (fun c => c.isDigit = true ∨ c = '.') rest) :
    Stops (·.isDigit = true) (cs ++ rest) := by
  rcases hcs with rfl | ⟨ds, -, rfl⟩
  · exact hrest.imp fun _ => .inl
  · exact stops_cons (by decide)

theorem IsWhole.exists_cons (hcs : IsWhole cs) : ∃ c ds, cs = c :: ds ∧ c.isDigit = true := by
  rcases hcs with rfl | ⟨⟨hne, hcs⟩, -⟩
  · exact ⟨'0', [], rfl, by decide⟩
  · obtain ⟨c, ds, rfl⟩ := List.exists_cons_of_ne_nil hne
    exact ⟨c, ds, rfl, hcs c List.mem_cons_self⟩

/-- a number starts with a digit or a minus -/
theorem Numeral.exists_cons (h : Numeral cs) :
    ∃ c ds, cs = c :: ds ∧ (c.isDigit = true ∨ c = '-') := by
  obtain ⟨sign, whole, fraction, exponent, hsign, hwhole, -, -, rfl⟩ := h.exists_parts
  rcases hsign with rfl | rfl
  · obtain ⟨c, ds, rfl, hc⟩ := hwhole.exists_cons
    exact ⟨c, _, rfl, .inl hc⟩
  · exact ⟨'-', _, rfl, .inr rfl⟩

/-- **A number is read to its end and no further.** -/
theorem readNumber?_append (h : Numeral cs) (hrest : Ends rest) :
    readNumber? (cs ++ rest) = some (String.ofList cs, rest) := by
  obtain ⟨sign, whole, fraction, exponent, hsign, hwhole, hfraction, hexponent, rfl⟩ := h.exists_parts
  have hstops := hexponent.stops hrest
  have hread := readWhole?_append hwhole (hfraction.stops hstops)
  rcases hsign with rfl | rfl
  · obtain ⟨c, ds, rfl, hc⟩ := hwhole.exists_cons
    rw [List.nil_append, List.append_assoc, List.append_assoc, readNumber?.eq_2, hread]
    · simp only [Option.bind_eq_bind, Option.bind_some, readFraction?_append hfraction hstops,
        readExponent?_append hexponent hrest, List.nil_append, List.append_assoc]
      rfl
    · rintro cs h
      rw [(List.cons.inj h).1] at hc
      cases hc
  · rw [List.singleton_append, List.append_assoc, List.append_assoc, List.cons_append,
      readNumber?.eq_1, hread]
    simp only [Option.bind_eq_bind, Option.bind_some, readFraction?_append hfraction hstops,
      readExponent?_append hexponent hrest, List.append_assoc]
    rfl

/-! ## the text of a float -/

theorem IsDigits.append {ds es : List Char} (hds : ∀ c ∈ ds, c.isDigit = true) (hes : IsDigits es) :
    IsDigits (ds ++ es) := by
  refine ⟨List.append_ne_nil_of_right_ne_nil ds hes.1, fun c hc => ?_⟩
  rcases List.mem_append.mp hc with hc | hc
  · exact hds c hc
  · exact hes.2 c hc

theorem isDigits_repr (n : Nat) : IsDigits (Nat.repr n).toList := by
  rw [Nat.toList_repr]
  exact ⟨Nat.toDigits_ne_nil, fun c hc => Nat.isDigit_of_mem_toDigits (by decide) (by decide) hc⟩

theorem isDigit_of_mem_zeros {n : Nat} {c : Char} (h : c ∈ (Decimal.zeros n).toList) :
    c.isDigit = true := by
  rw [Decimal.zeros, String.toList_ofList] at h
  rw [List.eq_of_mem_replicate h]
  decide

/-- the digits of a number other than zero do not start with a zero -/
theorem head?_repr_ne {n : Nat} (hn : n ≠ 0) : (Nat.repr n).toList.head? ≠ some '0' := by
  rw [Nat.toList_repr]
  induction n using Nat.strongRecOn with
  | ind n ih =>
    by_cases hlt : n < 10
    · rw [Nat.toDigits_of_lt_base hlt]
      have hdigit : ∀ k < 10, k ≠ 0 → [k.digitChar].head? ≠ some '0' := by decide
      exact hdigit n hlt hn
    · have hle : 10 ≤ n := Nat.not_lt.mp hlt
      rw [Nat.toDigits_of_base_le (by decide) hle, List.head?_append_of_ne_nil _ Nat.toDigits_ne_nil]
      exact ih (n / 10) (by omega) (by omega)

theorem isWhole_repr (n : Nat) : IsWhole (Nat.repr n).toList := by
  by_cases hn : n = 0
  · subst hn
    exact .inl (by decide)
  · exact .inr ⟨isDigits_repr n, head?_repr_ne hn⟩

/-- the parts of a number whose sign is written in front -/
theorem numeral_signed {whole fraction exponent : List Char} (negative : Bool) {s : String}
    (hwhole : IsWhole whole) (hfraction : IsFraction fraction) (hexponent : IsExponent exponent)
    (hs : s.toList = whole ++ fraction ++ exponent) :
    Numeral (Decimal.signed negative s).toList := by
  cases negative with
  | false => exact ⟨[], _, _, _, .inl rfl, hwhole, hfraction, hexponent, hs⟩
  | true =>
    refine ⟨['-'], _, _, _, .inr rfl, hwhole, hfraction, hexponent, ?_⟩
    rw [Decimal.signed, if_pos rfl, String.toList_append, hs]
    rfl

/-- whole digits with a point and a zero behind them -/
theorem isWhole_positional {d : Decimal.Digits} (hd : 0 ≤ d.exponent) :
    IsWhole (Decimal.positional d).toList := by
  rw [Decimal.positional, if_pos hd]
  split
  · exact .inl (by decide)
  · rename_i hn
    rw [String.toList_append]
    refine .inr ⟨⟨?_, fun c hc => ?_⟩, ?_⟩
    · exact List.append_ne_nil_of_left_ne_nil (isDigits_repr _).1 _
    · rcases List.mem_append.mp hc with hc | hc
      · exact (isDigits_repr _).2 c hc
      · exact isDigit_of_mem_zeros hc
    · rw [List.head?_append_of_ne_nil _ (isDigits_repr _).1]
      exact head?_repr_ne hn

theorem isDigits_padded (n width : Nat) : IsDigits (Decimal.padded n width).toList := by
  rw [Decimal.padded, String.toList_append]
  exact .append (fun _ => isDigit_of_mem_zeros) (isDigits_repr n)

/-- digits with some places behind the point -/
theorem exists_positional {d : Decimal.Digits} (hd : ¬ 0 ≤ d.exponent) :
    ∃ whole fraction, IsWhole whole ∧ IsFraction fraction
      ∧ (Decimal.positional d).toList = whole ++ fraction := by
  rw [Decimal.positional, if_neg hd, Decimal.pointed, if_neg (by omega), String.toList_append,
    String.toList_append, List.append_assoc]
  exact ⟨_, _, isWhole_repr _, .inr ⟨_, isDigits_padded _ _, rfl⟩, rfl⟩

/-- the first digit of a number, alone -/
theorem isWhole_take_repr (n : Nat) : IsWhole ((Nat.repr n).toList.take 1) := by
  obtain ⟨c, ds, heq, hc⟩ := (isWhole_repr n).exists_cons
  rw [heq]
  by_cases hzero : c = '0'
  · exact .inl (congrArg ([·]) hzero)
  · refine .inr ⟨⟨nofun, fun d hd => ?_⟩, fun h => hzero (Option.some.inj h)⟩
    rwa [List.mem_singleton.mp hd]

/-- a signed exponent -/
theorem isExponent_repr (e : Int) :
    IsExponent ('e' :: ((if e < 0 then "" else "+") ++ Int.repr e).toList) := by
  cases e with
  | ofNat n =>
    refine .inr ⟨['+'], _, .inr rfl, isDigits_repr n, ?_⟩
    have hnot : ¬ Int.ofNat n < 0 := Int.not_lt.mpr (Int.natCast_nonneg n)
    rw [if_neg hnot, String.toList_append]
    rfl
  | negSucc n =>
    refine .inr ⟨['-'], _, .inl (.inr rfl), isDigits_repr (n + 1), ?_⟩
    have hrepr : Int.repr (.negSucc n) = "-" ++ Nat.repr (n + 1) := rfl
    rw [if_pos (Int.negSucc_lt_zero n), hrepr, String.toList_append, String.toList_append]
    rfl

/-- the further digits of a number, behind a point if there are any -/
theorem isFraction_drop_repr (n : Nat) : IsFraction
    (if ((Nat.repr n).drop 1).toString.isEmpty then "" else "." ++ ((Nat.repr n).drop 1).toString).toList := by
  have hdrop : ((Nat.repr n).drop 1).toString.toList = (Nat.repr n).toList.drop 1 :=
    String.toList_copy_drop
  split
  · exact .inl rfl
  · rename_i hne
    refine .inr ⟨(Nat.repr n).toList.drop 1, ⟨fun h => hne ?_, fun c hc => ?_⟩, ?_⟩
    · rw [← hdrop] at h
      exact String.isEmpty_iff.mpr (String.toList_eq_nil_iff.mp h)
    · exact (isDigits_repr n).2 c (List.mem_of_mem_drop hc)
    · rw [String.toList_append, hdrop]
      rfl

/-- digits with a signed exponent -/
theorem exists_scientific (d : Decimal.Digits) : ∃ whole fraction exponent, IsWhole whole
    ∧ IsFraction fraction ∧ IsExponent exponent
    ∧ (Decimal.scientific "+" d).toList = whole ++ fraction ++ exponent := by
  have htake : ((Nat.repr d.coefficient).take 1).toString.toList
      = (Nat.repr d.coefficient).toList.take 1 := String.toList_copy_take
  refine ⟨_, _, _, isWhole_take_repr d.coefficient, isFraction_drop_repr d.coefficient,
    isExponent_repr (d.exponent + ((Nat.repr d.coefficient).length - 1 : Int)), ?_⟩
  rw [Decimal.scientific]
  simp only [String.toList_append, htake, List.append_assoc]
  rfl

/-- **The text of a float is a number.** -/
theorem numeral_of_compact? {x : Float} {t : String} (h : Decimal.compact? x = some t) :
    Numeral t.toList := by
  unfold Decimal.compact? at h
  dsimp only at h
  split at h
  · cases h
  · cases h
  · cases h
    split
    · split
      · rename_i hd
        exact numeral_signed _ (isWhole_positional hd) (.inr ⟨['0'], isDigits_zero, rfl⟩) (.inl rfl)
          (by rw [String.toList_append]; simp)
      · rename_i hd
        obtain ⟨whole, fraction, hwhole, hfraction, heq⟩ := exists_positional hd
        exact numeral_signed _ hwhole hfraction (.inl rfl) (by rw [heq, List.append_nil])
    · obtain ⟨whole, fraction, exponent, hwhole, hfraction, hexponent, heq⟩ := exists_scientific _
      exact numeral_signed _ hwhole hfraction hexponent heq

end Json

end LiftedElimination
