import LiftedElimination.Proofs.Guarded
import LiftedElimination.Proofs.Tabulated

/-!
# Row-major order

The places of a table are counted in three ways: a fold over the digits of an assignment, repeated
division of a place, and an odometer that carries from the last digit on.  They are one order.

* `indexOf_digitsOf`   folding the digits that division leaves gives the place back;
* `bijOn_indexOf`      so the assignments are numbered without gaps;
* `next?_digitsOf`     the odometer goes through the places in turn, from the last one to the first;
* `Factor.entry_ofFn`  a table that is filled along the odometer is read by the fold;
* `row_major`          all of it, as far as numbers of 64 bits go.
-/

namespace LiftedElimination

namespace Index

variable {sizes digits : List Nat}

/-- what division leaves over and the digits it takes away make up the place -/
theorem digitsFrom_spec (h : 0 < sizes.prod) (i : Nat) :
    (digitsFrom sizes i).2 * sizes.prod + indexOf sizes (digitsOf sizes i) = i := by
  induction sizes with
  | nil =>
    rw [List.prod_nil, Nat.mul_one]
    rfl
  | cons s sizes ih =>
    rw [List.prod_cons] at h
    have hs : 0 < s := Nat.pos_of_mul_pos_right h
    have hrest : 0 < sizes.prod := Nat.pos_of_mul_pos_left h
    have hlen := (below_digitsOf hrest i).length_eq
    unfold digitsOf at ih hlen ⊢
    rw [digitsFrom_cons _ _ _ hs.ne', indexOf_cons hlen, List.prod_cons]
    generalize (digitsFrom sizes i).2 = q at ih ⊢
    calc q / s * (s * sizes.prod) + (q % s * sizes.prod + indexOf sizes (digitsFrom sizes i).1)
        = (s * (q / s) + q % s) * sizes.prod + indexOf sizes (digitsFrom sizes i).1 := by ring
      _ = i := by rw [Nat.div_add_mod, ih hrest]

/-- **Dividing and folding.**  A place in the table is the fold of its digits. -/
theorem indexOf_digitsOf {i : Nat} (h : i < sizes.prod) :
    indexOf sizes (digitsOf sizes i) = i := by
  have hpos : 0 < sizes.prod := Nat.zero_lt_of_lt h
  have hspec := digitsFrom_spec hpos i
  rcases Nat.eq_zero_or_pos (digitsFrom sizes i).2 with hzero | hmore
  · rwa [hzero, Nat.zero_mul, Nat.zero_add] at hspec
  · have hle := Nat.le_mul_of_pos_left sizes.prod hmore
    omega

/-- behind the last place, division begins again -/
theorem digitsOf_mod (h : 0 < sizes.prod) (i : Nat) :
    digitsOf sizes (i % sizes.prod) = digitsOf sizes i := by
  have hplace :
      i / sizes.prod * sizes.prod + indexOf sizes (digitsOf sizes (i % sizes.prod)) = i := by
    rw [indexOf_digitsOf (Nat.mod_lt i h), Nat.mul_comm, Nat.div_add_mod]
  have hfrom := digitsFrom_indexOf (below_digitsOf h (i % sizes.prod)) (i / sizes.prod)
  rw [hplace] at hfrom
  rw [digitsOf.eq_def sizes i, hfrom]

/-- **The places of the assignments** are those before the volume, each of them once. -/
theorem bijOn_indexOf (sizes : List Nat) :
    Set.BijOn (indexOf sizes) {a | Below a sizes} (Set.Iio sizes.prod) := by
  have hinverse : Set.InvOn (digitsOf sizes) (indexOf sizes) {a | Below a sizes}
      (Set.Iio sizes.prod) :=
    ⟨fun a ha => digitsOf_indexOf ha, fun i hi => indexOf_digitsOf hi⟩
  exact hinverse.bijOn (fun a ha => indexOf_lt ha)
    fun i hi => below_digitsOf (Nat.zero_lt_of_lt hi) i

/-- no digit of an assignment is the largest number of 64 bits -/
theorem overflows_of_below (h : Below digits sizes) (hword : sizes.prod ≤ maxWord) :
    overflows (sizes.zip digits) = false := by
  induction h with
  | nil => rfl
  | @cons d s digits sizes hd hds ih =>
    rw [List.prod_cons] at hword
    have hpos : 0 < sizes.prod := Below.prod_pos hds
    have hsize : s ≤ maxWord := (Nat.le_mul_of_pos_right s hpos).trans hword
    have hrest : sizes.prod ≤ maxWord :=
      (Nat.le_mul_of_pos_left sizes.prod (Nat.zero_lt_of_lt hd)).trans hword
    have hdigit : (d == maxWord) = false := beq_eq_false_iff_ne.mpr (by omega)
    rw [List.zip_cons_cons, overflows, ih hrest, hdigit, Bool.and_false, Bool.or_false]

/-- **The odometer** goes from the digits of a place to those of the next, and from the last place
to zeros. -/
theorem next?_digitsOf {i : Nat} (h : i < sizes.prod) (hword : sizes.prod ≤ maxWord) :
    next? sizes (digitsOf sizes i) = .ok (digitsOf sizes ((i + 1) % sizes.prod)) := by
  have hpos : 0 < sizes.prod := Nat.zero_lt_of_lt h
  have hbelow := below_digitsOf hpos i
  rw [next?, if_neg hbelow.length_eq.le.not_gt, overflows_of_below hbelow hword,
    advance_digitsOf hpos, digitsOf_mod hpos]
  rfl

end Index

namespace Factor

variable {K : Type} {sizes digits : List Nat}

/-- an assignment is read at the place where the odometer has put its entry -/
theorem entry_ofFn {f : List Nat → Except Error K} {t : Factor K} (h : ofFn sizes f = .ok t)
    (hd : Index.Below digits sizes) : t.entry sizes digits = f digits := by
  obtain ⟨x, hx, hget⟩ := getElem?_ofFn h hd
  have hindex := Index.indexOf?_eq hd ((size_ofFn h).2.trans (by decide))
  rw [entry, hindex, hx]
  dsimp only
  rw [hget]

/-- a table is built of every function, if there can be one of its size -/
theorem exists_ofFn {f : List Nat → K} (h : Index.Fits sizes) :
    ∃ t, ofFn sizes (fun a => .ok (f a)) = .ok t := by
  obtain ⟨n, hn⟩ := h
  have herrors : ErrorsIn (fun _ => False) (ofFn sizes fun a => .ok (f a)) :=
    errorsIn_ofFn_below (hn ▸ .ok n) fun _ _ _ => .ok _
  exact herrors.exists_ok

end Factor

namespace Index

/-- **Row-major order.**  Where the product of the sizes has 64 bits, the fold numbers the
assignments from zero on without gaps, repeated division is its inverse, and the odometer goes from
each place to the next, at the end to zeros.  Neither the fold nor the odometer leaves 64 bits on the
way.  A table is built of every function exactly if memory can hold that many entries, and then the
entry read for an assignment is the value of the function. -/
theorem row_major {sizes : List Nat} {n : Nat} (h : volumeFrom? sizes 1 = .ok n) :
    Set.BijOn (indexOf sizes) {a | Below a sizes} (Set.Iio n)
      ∧ (∀ a, Below a sizes → indexOf? sizes a = .ok (indexOf sizes a)
          ∧ digitsOf sizes (indexOf sizes a) = a)
      ∧ (∀ i < n, Below (digitsOf sizes i) sizes ∧ indexOf sizes (digitsOf sizes i) = i
          ∧ next? sizes (digitsOf sizes i)
            = .ok (if i + 1 = n then sizes.map fun _ => 0 else digitsOf sizes (i + 1)))
      ∧ ∀ (K : Type) (f : List Nat → K),
          ((∃ t, Factor.ofFn sizes (fun a => .ok (f a)) = .ok t) ↔ n ≤ maxEntries)
            ∧ ∀ t, Factor.ofFn sizes (fun a => .ok (f a)) = .ok t →
                t.size = n ∧ ∀ a, Below a sizes → t.entry sizes a = .ok (f a) := by
  obtain rfl : n = sizes.prod := (volumeFrom?_ok h).trans (Nat.one_mul _)
  have hword : sizes.prod ≤ maxWord := prod_le_of_volumeFrom? h (by decide)
  refine ⟨bijOn_indexOf sizes, fun a ha => ⟨indexOf?_eq ha hword, digitsOf_indexOf ha⟩,
    fun i hi => ?_, fun K f => ⟨⟨?_, fun hle => ?_⟩, fun t ht => ⟨(Factor.size_ofFn ht).1, ?_⟩⟩⟩
  · refine ⟨below_digitsOf (Nat.zero_lt_of_lt hi) i, indexOf_digitsOf hi, ?_⟩
    rw [next?_digitsOf hi hword]
    split
    · rename_i hlast
      rw [hlast, Nat.mod_self, digitsOf_zero]
    · rename_i hmore
      rw [Nat.mod_eq_of_lt (by omega)]
  · rintro ⟨t, ht⟩
    exact (Factor.size_ofFn ht).2
  · exact Factor.exists_ofFn (fits_iff.mpr ⟨⟨_, h⟩, hle⟩)
  · exact fun a ha => Factor.entry_ofFn ht ha

/-- a table of twelve entries, each the number with the digits of its assignment -/
theorem row_major_two_three_two : volumeFrom? [2, 3, 2] 1 = .ok 12
    ∧ indexOf? [2, 3, 2] [1, 0, 1] = .ok 7
    ∧ next? [2, 3, 2] [1, 2, 1] = .ok [0, 0, 0]
    ∧ ∃ t, Factor.ofFn [2, 3, 2] (fun a => .ok (a.foldl (10 * · + ·) 0)) = .ok t
      ∧ t.entry [2, 3, 2] [1, 0, 1] = .ok 101 := by
  have hvolume : volumeFrom? [2, 3, 2] 1 = .ok 12 := by decide
  have hbelow : Below [1, 0, 1] [2, 3, 2] := by decide
  obtain ⟨-, hfold, hplaces, htable⟩ := row_major hvolume
  obtain ⟨hbuilt, hentries⟩ := htable Nat fun a => a.foldl (10 * · + ·) 0
  obtain ⟨t, ht⟩ := hbuilt.mpr (by decide)
  exact ⟨hvolume, (hfold _ hbelow).1, (hplaces 11 (by decide)).2.2, t, ht,
    (hentries t ht).2 _ hbelow⟩

end Index

end LiftedElimination
