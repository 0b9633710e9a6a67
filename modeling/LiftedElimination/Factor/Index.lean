import LiftedElimination.Histogram
import LiftedElimination.Error

/-!
# Row-major indices

A table over variables with `sizes` values holds one entry for each assignment of digits; the
first variable is the most significant digit.

* `indexOf sizes digits`      the place of an assignment;
* `indexOf? sizes digits`     the same in numbers of 64 bits, an error where they do not suffice;
* `digitsOf sizes i`          the assignment at place `i`;
* `advance sizes digits`      the next assignment, from the last one back to zeros;
* `volume? sizes`             the number of assignments, as far as a table can hold them.
-/

namespace LiftedElimination

namespace Index

def indexOf (sizes digits : List Nat) : Nat :=
  (sizes.zip digits).foldl (fun acc p => acc * p.1 + p.2) 0

/-- one digit behind an index, in 64 bits -/
def push? (acc size digit : Nat) : Except Error Nat :=
  if acc * size + digit ≤ maxWord then .ok (acc * size + digit) else .error .overflow

def indexFrom? : List (Nat × Nat) → Nat → Except Error Nat
  | [], acc => .ok acc
  | (size, digit) :: rest, acc =>
    match push? acc size digit with
    | .error e => .error e
    | .ok acc => indexFrom? rest acc

/-- the place of an assignment; an error if a partial result has more than 64 bits -/
def indexOf? (sizes digits : List Nat) : Except Error Nat := indexFrom? (sizes.zip digits) 0

theorem indexFrom?_ok {l : List (Nat × Nat)} {acc n : Nat} (h : indexFrom? l acc = .ok n) :
    l.foldl (fun acc p => acc * p.1 + p.2) acc = n := by
  induction l generalizing acc with
  | nil => exact Except.ok.inj h
  | cons p l ih =>
    unfold indexFrom? push? at h
    split at h
    · cases h
    · rename_i hp
      split at hp
      · cases hp
        exact ih h
      · cases hp

theorem indexOf?_ok {sizes digits : List Nat} {n : Nat} (h : indexOf? sizes digits = .ok n) :
    indexOf sizes digits = n := indexFrom?_ok h

/-- the digits of `i` from the last size on, and what is left of it; a size of zero has digit 0 and
takes nothing away -/
def digitsFrom (sizes : List Nat) (i : Nat) : List Nat × Nat :=
  sizes.foldr (fun size p =>
    if size = 0 then (0 :: p.1, p.2) else (p.2 % size :: p.1, p.2 / size)) ([], i)

def digitsOf (sizes : List Nat) (i : Nat) : List Nat := (digitsFrom sizes i).1

/-- the assignment after this one, and whether it wrapped around to zeros -/
def advance : List (Nat × Nat) → List Nat × Bool
  | [] => ([], true)
  | (size, digit) :: rest =>
    let (digits, wrapped) := advance rest
    if wrapped then
      if digit + 1 < size then ((digit + 1) :: digits, false) else (0 :: digits, true)
    else (digit :: digits, false)

/-- the carry reaches a digit that has no successor in 64 bits -/
def overflows : List (Nat × Nat) → Bool
  | [] => false
  | (_, digit) :: rest => overflows rest || ((advance rest).2 && digit == maxWord)

/-- the assignment after `digits`; an error if it is longer than the shape or has no successor -/
def next? (sizes digits : List Nat) : Except Error (List Nat) :=
  if sizes.length < digits.length then .error .shape
  else if overflows (sizes.zip digits) then .error .overflow
  else .ok (advance (sizes.zip digits)).1

/-- the largest number of entries that a table can hold -/
def maxEntries : Nat := Nat.pow 2 60 - 1

def volumeFrom? : List Nat → Nat → Except Error Nat
  | [], acc => .ok acc
  | size :: rest, acc =>
    if acc * size ≤ maxWord then volumeFrom? rest (acc * size) else .error .overflow

/-- the number of assignments of a table over `sizes` -/
def volume? (sizes : List Nat) : Except Error Nat :=
  match volumeFrom? sizes 1 with
  | .error e => .error e
  | .ok n => if n ≤ maxEntries then .ok n else .error .overflow

end Index

end LiftedElimination
