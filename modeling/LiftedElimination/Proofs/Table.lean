import Mathlib.Data.List.Forall2
import Mathlib.Algebra.BigOperators.Group.List.Basic
import Mathlib.Tactic.Ring
import LiftedElimination.Factor

/-!
# Tables

A table over `sizes` holds one entry for every list of digits below the sizes.  `Factor.lookup` is
the entry as a function, zero outside of the table.

* `digitsOf_indexOf`   the assignment at the place of an assignment is the assignment;
* `indexOf_lt`         the place lies in the table;
* `advance_digitsOf`   one turn of the odometer is one more to divide;
* `lookup_of_entry`    an entry that is read is the one of `lookup`;
* `ofFn_ok`            a table that is built has the entries it was built from;
* `Index.Fits`         the sizes of a table that memory holds.
-/

namespace LiftedElimination

namespace Index

/-- one digit for every size, below it -/
abbrev Below (digits sizes : List Nat) : Prop := List.Forall₂ (· < ·) digits sizes

theorem foldl_indexOf (l : List (Nat × Nat)) (acc : Nat) :
    l.foldl (fun acc p => acc * p.1 + p.2) acc
      = acc * (l.map Prod.fst).prod + l.foldl (fun acc p => acc * p.1 + p.2) 0 := by
  induction l generalizing acc with
  | nil => simp
  | cons p l ih =>
    rw [List.foldl_cons, List.foldl_cons, ih, ih (0 * p.1 + p.2), List.map_cons, List.prod_cons]
    ring

theorem indexOf_nil : indexOf [] [] = 0 := rfl

theorem indexOf_cons {sizes digits : List Nat} (h : digits.length = sizes.length) (s d : Nat) :
    indexOf (s :: sizes) (d :: digits) = d * sizes.prod + indexOf sizes digits := by
  unfold indexOf
  rw [List.zip_cons_cons, List.foldl_cons, foldl_indexOf, List.map_fst_zip h.ge]
  ring

theorem indexOf_lt {sizes digits : List Nat} (h : Below digits sizes) :
    indexOf sizes digits < sizes.prod := by
  induction h with
  | nil => exact Nat.zero_lt_one
  | @cons d s digits sizes hd hds ih =>
    rw [indexOf_cons hds.length_eq, List.prod_cons]
    calc d * sizes.prod + indexOf sizes digits < d * sizes.prod + sizes.prod := by omega
      _ = (d + 1) * sizes.prod := by ring
      _ ≤ s * sizes.prod := Nat.mul_le_mul_right _ hd

theorem digitsFrom_cons (s : Nat) (sizes : List Nat) (i : Nat) (h : s ≠ 0) :
    digitsFrom (s :: sizes) i
      = ((digitsFrom sizes i).2 % s :: (digitsFrom sizes i).1, (digitsFrom sizes i).2 / s) := by
  unfold digitsFrom
  rw [List.foldr_cons, if_neg h]

theorem digitsFrom_zero_cons (sizes : List Nat) (i : Nat) :
    digitsFrom (0 :: sizes) i = (0 :: (digitsFrom sizes i).1, (digitsFrom sizes i).2) := rfl

/-- the digits of a place, with a multiple of the whole table in front -/
theorem digitsFrom_indexOf {sizes digits : List Nat} (h : Below digits sizes) (q : Nat) :
    digitsFrom sizes (q * sizes.prod + indexOf sizes digits) = (digits, q) := by
  induction h generalizing q with
  | nil =>
    rw [indexOf_nil, List.prod_nil, Nat.mul_one]
    rfl
  | @cons d s digits sizes hd hds ih =>
    have hs : 0 < s := Nat.zero_lt_of_lt hd
    have hsplit : q * (s :: sizes).prod + indexOf (s :: sizes) (d :: digits)
        = (q * s + d) * sizes.prod + indexOf sizes digits := by
      rw [indexOf_cons hds.length_eq, List.prod_cons]
      ring
    have hmod : (q * s + d) % s = d := by
      rw [Nat.add_comm, Nat.add_mul_mod_self_right, Nat.mod_eq_of_lt hd]
    have hdiv : (q * s + d) / s = q := by
      rw [Nat.add_comm, Nat.add_mul_div_right _ _ hs, Nat.div_eq_of_lt hd, Nat.zero_add]
    rw [hsplit, digitsFrom_cons _ _ _ hs.ne', ih, hmod, hdiv]

theorem digitsOf_indexOf {sizes digits : List Nat} (h : Below digits sizes) :
    digitsOf sizes (indexOf sizes digits) = digits := by
  have hfrom := digitsFrom_indexOf h 0
  rw [Nat.zero_mul, Nat.zero_add] at hfrom
  rw [digitsOf, hfrom]

/-- the digits of a place are an assignment, unless the table is empty -/
theorem below_digitsOf {sizes : List Nat} (h : 0 < sizes.prod) (i : Nat) :
    Below (digitsOf sizes i) sizes := by
  unfold digitsOf
  induction sizes with
  | nil => exact .nil
  | cons s sizes ih =>
    rw [List.prod_cons] at h
    have hs : 0 < s := Nat.pos_of_mul_pos_right h
    rw [digitsFrom_cons _ _ _ hs.ne']
    exact .cons (Nat.mod_lt _ hs) (ih (Nat.pos_of_mul_pos_left h))

theorem digitsOf_zero (sizes : List Nat) : digitsOf sizes 0 = sizes.map fun _ => 0 := by
  have hfrom : digitsFrom sizes 0 = (sizes.map fun _ => 0, 0) := by
    induction sizes with
    | nil => rfl
    | cons s sizes ih =>
      rcases Nat.eq_zero_or_pos s with rfl | hs
      · rw [digitsFrom_zero_cons, ih]
        rfl
      · rw [digitsFrom_cons _ _ _ hs.ne', ih, Nat.zero_mod, Nat.zero_div]
        rfl
  rw [digitsOf, hfrom]

theorem advance_cons (s d : Nat) (rest : List (Nat × Nat)) : advance ((s, d) :: rest)
    = if (advance rest).2 then
        if d + 1 < s then ((d + 1) :: (advance rest).1, false) else (0 :: (advance rest).1, true)
      else (d :: (advance rest).1, false) := rfl

/-- **One turn of the odometer.**  Its digits are those of the next place, and it wraps around where
dividing the next place leaves one more. -/
theorem advance_digitsFrom {sizes : List Nat} (h : 0 < sizes.prod) (i : Nat) :
    (advance (sizes.zip (digitsFrom sizes i).1)).1 = (digitsFrom sizes (i + 1)).1
      ∧ (digitsFrom sizes (i + 1)).2
        = (digitsFrom sizes i).2 + (advance (sizes.zip (digitsFrom sizes i).1)).2.toNat := by
  induction sizes with
  | nil => exact ⟨rfl, rfl⟩
  | cons s sizes ih =>
    rw [List.prod_cons] at h
    have hs : 0 < s := Nat.pos_of_mul_pos_right h
    obtain ⟨hdigits, hrest⟩ := ih (Nat.pos_of_mul_pos_left h)
    rw [digitsFrom_cons _ _ _ hs.ne', digitsFrom_cons _ _ _ hs.ne', List.zip_cons_cons,
      advance_cons, hdigits, hrest]
    generalize (digitsFrom sizes i).2 = q
    cases (advance (sizes.zip (digitsFrom sizes i).1)).2 with
    | false => exact ⟨rfl, rfl⟩
    | true =>
      have hsplit : q + 1 = q % s + 1 + s * (q / s) := by
        rw [Nat.add_right_comm, Nat.mod_add_div]
      rw [if_pos rfl, Bool.toNat_true, hsplit, Nat.add_mul_mod_self_left,
        Nat.add_mul_div_left _ _ hs]
      have hlt : q % s < s := Nat.mod_lt q hs
      split
      · rename_i hnext
        rw [Nat.mod_eq_of_lt hnext, Nat.div_eq_of_lt hnext, Nat.zero_add]
        exact ⟨rfl, rfl⟩
      · rename_i hlast
        rw [show q % s + 1 = s by omega, Nat.mod_self, Nat.div_self hs, Nat.add_comm 1]
        exact ⟨rfl, rfl⟩

theorem advance_digitsOf {sizes : List Nat} (h : 0 < sizes.prod) (i : Nat) :
    (advance (sizes.zip (digitsOf sizes i))).1 = digitsOf sizes (i + 1) :=
  (advance_digitsFrom h i).1

theorem volumeFrom?_ok {sizes : List Nat} {acc n : Nat} (h : volumeFrom? sizes acc = .ok n) :
    n = acc * sizes.prod := by
  induction sizes generalizing acc with
  | nil =>
    rw [List.prod_nil, Nat.mul_one]
    exact (Except.ok.inj h).symm
  | cons s sizes ih =>
    unfold volumeFrom? at h
    split at h
    · rw [ih h, List.prod_cons, Nat.mul_assoc]
    · cases h

theorem volume?_ok {sizes : List Nat} {n : Nat} (h : volume? sizes = .ok n) :
    n = sizes.prod ∧ n ≤ maxEntries := by
  unfold volume? at h
  split at h
  · cases h
  · rename_i m hm
    split at h
    · cases h
      exact ⟨(volumeFrom?_ok hm).trans (Nat.one_mul _), ‹_›⟩
    · cases h

/-- memory holds a table over the sizes, and no product on the way to its size has more than 64 bits -/
def Fits (sizes : List Nat) : Prop := ∃ n, volume? sizes = .ok n

theorem fits_iff {sizes : List Nat} :
    Fits sizes ↔ (∃ n, volumeFrom? sizes 1 = .ok n) ∧ sizes.prod ≤ maxEntries := by
  constructor
  · rintro ⟨n, hn⟩
    obtain ⟨rfl, hle⟩ := volume?_ok hn
    unfold volume? at hn
    split at hn
    · cases hn
    · rename_i m hm
      exact ⟨⟨m, hm⟩, hle⟩
  · rintro ⟨⟨n, hn⟩, hle⟩
    have hprod : n = sizes.prod := (volumeFrom?_ok hn).trans (Nat.one_mul _)
    refine ⟨n, ?_⟩
    unfold volume?
    rw [hn]
    exact if_pos (hprod ▸ hle)

end Index

namespace Factor

variable {K : Type}

/-- the entry of an assignment, zero outside of the table -/
def lookup [Zero K] (t : Factor K) (sizes digits : List Nat) : K :=
  (t.values[Index.indexOf sizes digits]?).getD 0

theorem lookup_of_entry [Zero K] {t : Factor K} {sizes digits : List Nat} {x : K}
    (h : t.entry sizes digits = .ok x) : t.lookup sizes digits = x := by
  unfold entry at h
  split at h
  · cases h
  · rename_i i hi
    rw [lookup, Index.indexOf?_ok hi]
    split at h
    · cases h
    · rename_i y hy
      cases h
      rw [hy]
      rfl

theorem fill_ok {sizes : List Nat} (hpos : 0 < sizes.prod) {f : List Nat → Except Error K}
    {n i : Nat} {acc out : Array K} (h : fill sizes f n (Index.digitsOf sizes i) acc = .ok out) :
    (∀ j, j < acc.size → out[j]? = acc[j]?) ∧ ∀ j, j < n →
      ∃ x, f (Index.digitsOf sizes (i + j)) = .ok x ∧ out[acc.size + j]? = some x := by
  induction n generalizing i acc with
  | zero =>
    cases h
    exact ⟨fun _ _ => rfl, fun j hj => absurd hj (Nat.not_lt_zero j)⟩
  | succ n ih =>
    unfold fill at h
    split at h
    · cases h
    · rename_i x hx
      rw [Index.advance_digitsOf hpos] at h
      obtain ⟨hold, hnew⟩ := ih h
      rw [Array.size_push] at hold hnew
      refine ⟨fun j hj => ?_, fun j hj => ?_⟩
      · rw [hold j (by omega), Array.getElem?_push, if_neg (by omega)]
      · cases j with
        | zero =>
          refine ⟨x, hx, ?_⟩
          rw [hold _ (by omega), Array.getElem?_push, if_pos (Nat.add_zero _)]
        | succ j =>
          obtain ⟨y, hy, hout⟩ := hnew j (by omega)
          exact ⟨y, by rw [← hy, Nat.add_right_comm, Nat.add_assoc],
            by rw [← hout, Nat.add_right_comm, Nat.add_assoc]⟩

theorem size_ofFn {sizes : List Nat} {f : List Nat → Except Error K} {t : Factor K}
    (h : ofFn sizes f = .ok t) : t.size = sizes.prod ∧ sizes.prod ≤ Index.maxEntries := by
  unfold ofFn at h
  split at h
  · cases h
  · rename_i n hn
    obtain ⟨rfl, hmax⟩ := Index.volume?_ok hn
    split at h
    · cases h
    · rename_i values hfill
      cases h
      exact ⟨(size_fill hfill).trans (Nat.zero_add _), hmax⟩

/-- the entry of an assignment stands at its place -/
theorem getElem?_ofFn {sizes digits : List Nat} {f : List Nat → Except Error K} {t : Factor K}
    (h : ofFn sizes f = .ok t) (hd : Index.Below digits sizes) :
    ∃ x, f digits = .ok x ∧ t.values[Index.indexOf sizes digits]? = some x := by
  unfold ofFn at h
  split at h
  · cases h
  · rename_i n hn
    obtain ⟨rfl, -⟩ := Index.volume?_ok hn
    split at h
    · cases h
    · rename_i values hfill
      cases h
      have hempty : (Array.emptyWithCapacity sizes.prod : Array K).size = 0 := rfl
      have hlt := Index.indexOf_lt hd
      rw [← Index.digitsOf_zero] at hfill
      obtain ⟨x, hx, hout⟩ := (fill_ok (Nat.zero_lt_of_lt hlt) hfill).2 _ hlt
      rw [Nat.zero_add, Index.digitsOf_indexOf hd] at hx
      rw [hempty, Nat.zero_add] at hout
      exact ⟨x, hx, hout⟩

/-- **A table that is built has the entries it was built from.** -/
theorem ofFn_ok [Zero K] {sizes : List Nat} {f : List Nat → Except Error K} {t : Factor K}
    (h : ofFn sizes f = .ok t) : t.size = sizes.prod ∧ sizes.prod ≤ Index.maxEntries
      ∧ ∀ digits, Index.Below digits sizes → f digits = .ok (t.lookup sizes digits) := by
  refine ⟨(size_ofFn h).1, (size_ofFn h).2, fun digits hd => ?_⟩
  obtain ⟨x, hx, hget⟩ := getElem?_ofFn h hd
  rw [hx, lookup, hget]
  rfl

theorem lookup_map [MulZeroClass K] (t : Factor K) (f : K → K) (hf : f 0 = 0)
    (sizes digits : List Nat) : (t.map f).lookup sizes digits = f (t.lookup sizes digits) := by
  unfold lookup map
  rw [Array.getElem?_map]
  cases t.values[Index.indexOf sizes digits]? with
  | none => exact hf.symm
  | some x => rfl

end Factor

end LiftedElimination
