import LiftedElimination.Factor.Index

/-!
# Factors

A factor is a dense table of potentials in row-major order.

* `Factor.entry`    the entry of an assignment over given sizes;
* `Factor.ofFn`     the table whose entries are computed from their assignments;
* `Factor.map`, `constant`, `ones`, `normalized`.

Tables are compared entry by entry and then by length.
-/

namespace LiftedElimination

/-- a table of entries -/
structure Factor (K : Type) where
  values : Array K

namespace Factor

variable {K : Type}

def size (t : Factor K) : Nat := t.values.size

def toList (t : Factor K) : List K := t.values.toList

def get? (t : Factor K) (i : Nat) : Option K := t.values[i]?

def map (t : Factor K) (f : K → K) : Factor K := ⟨t.values.map f⟩

@[simp] theorem size_map (t : Factor K) (f : K → K) : (t.map f).size = t.size := Array.size_map

/-- the entry of the assignment `digits` in a table over `sizes` -/
def entry (t : Factor K) (sizes digits : List Nat) : Except Error K :=
  match Index.indexOf? sizes digits with
  | .error e => .error e
  | .ok i =>
    match t.values[i]? with
    | none => .error .tableBounds
    | some x => .ok x

/-- `n` more entries behind `acc`, those of `digits` and of the assignments after it -/
def fill (sizes : List Nat) (f : List Nat → Except Error K) :
    Nat → List Nat → Array K → Except Error (Array K)
  | 0, _, acc => .ok acc
  | n + 1, digits, acc =>
    match f digits with
    | .error e => .error e
    | .ok x => fill sizes f n (Index.advance (sizes.zip digits)).1 (acc.push x)

theorem size_fill {sizes digits : List Nat} {f : List Nat → Except Error K} {n : Nat}
    {acc out : Array K} (h : fill sizes f n digits acc = .ok out) : out.size = acc.size + n := by
  induction n generalizing digits acc with
  | zero =>
    cases h
    rfl
  | succ n ih =>
    unfold fill at h
    split at h
    · cases h
    · rw [ih h, Array.size_push]
      omega

/-- the table over `sizes` with the entry `f a` for the assignment `a` -/
def ofFn (sizes : List Nat) (f : List Nat → Except Error K) : Except Error (Factor K) :=
  match Index.volume? sizes with
  | .error e => .error e
  | .ok n =>
    match fill sizes f n (sizes.map fun _ => 0) (Array.emptyWithCapacity n) with
    | .error e => .error e
    | .ok values => .ok ⟨values⟩

/-- a table of `n` entries `x` -/
def constant (n : Nat) (x : K) : Except Error (Factor K) :=
  if n ≤ Index.maxEntries then .ok ⟨Array.replicate n x⟩ else .error .overflow

def checkSize (t : Factor K) (expected : Nat) : Except Error Unit :=
  if t.size = expected then .ok () else .error (.factorSize expected t.size)

variable [Scalar K]

instance : Ord (Factor K) := ⟨compareOn Factor.values⟩

instance : Std.TransOrd (Factor K) := inferInstanceAs (Std.TransCmp (compareOn Factor.values))

def ones (n : Nat) : Except Error (Factor K) := constant n 1

def isAllOnes (t : Factor K) : Bool := t.values.all Scalar.isOne

def squared (t : Factor K) : Factor K := t.map fun x => x * x

/-- the entries over their sum; a table with sum zero is left alone -/
def normalized (t : Factor K) : Factor K :=
  let total := Scalar.sum t.toList
  if Scalar.isZero total then t else t.map (· / total)

end Factor

end LiftedElimination
