import LiftedElimination.Component

/-!
# Distributions and marginals

* `Distribution`       a product of components, kept as a set: a component that is there already is
                       replaced by its square;
* `add`, `addAll`      multiplication by components; `pushFolded` does the same for a list;
* `product`            all components multiplied into one parfactor;
* `Marginal`           a distribution with the sets of random variables that must survive;
* `isDone`, `answer`   whether nothing else is left, and the product of what is left.
-/

namespace LiftedElimination

variable {K : Type} [Scalar K]

/-- a product of components -/
structure Distribution (K : Type) [Scalar K] where
  components : SortedSet (Component K)

namespace Distribution

def empty : Distribution K := ⟨∅⟩

instance : Inhabited (Distribution K) := ⟨empty⟩

/-- the components in their order -/
def toList (d : Distribution K) : List (Component K) := d.components.toList

def size (d : Distribution K) : Nat := d.components.size

def isEmpty (d : Distribution K) : Bool := d.components.isEmpty

def contains (d : Distribution K) (c : Component K) : Bool := d.components.contains c

def erase (d : Distribution K) (c : Component K) : Distribution K := ⟨d.components.erase c⟩

/-- the same components, table entries compared by their order -/
def same (d e : Distribution K) : Bool := compare d.components e.components == .eq

/-! ## multiplication by a component -/

theorem size_erase_lt {s : SortedSet (Component K)} {c : Component K} (h : s.contains c = true) :
    (s.erase c).size < s.size := by
  obtain ⟨b, hb, hc⟩ := List.any_eq_true.mp h
  refine List.length_filter_lt_length_iff_exists.mpr ⟨b, hb, ?_⟩
  rw [eq_of_beq hc]
  exact nofun

/-- `c` put into `s`; for a component that is there already both are replaced by the square -/
def absorb (s : SortedSet (Component K)) (c : Component K) : SortedSet (Component K) :=
  if h : s.contains c = true then
    have := size_erase_lt h
    absorb (s.erase c) c.squared
  else s.insert c
termination_by s.size

def add (d : Distribution K) (c : Component K) : Distribution K := ⟨absorb d.components c⟩

def addAll (d : Distribution K) (l : List (Component K)) : Distribution K := l.foldl add d

def ofList (l : List (Component K)) : Distribution K := empty.addAll l

/-- the list with `c` behind it; for a component that is there already both are replaced by the
square -/
def pushFolded (l : List (Component K)) (c : Component K) : List (Component K) :=
  match h : l.findIdx? c.same with
  | none => l ++ [c]
  | some i =>
    have : (l.eraseIdx i).length < l.length := by
      have hi := (List.findIdx?_eq_some_iff_findIdx_eq.mp h).1
      rw [List.length_eraseIdx_of_lt hi]
      omega
    pushFolded (l.eraseIdx i) c.squared
termination_by l.length

/-! ## random variables -/

/-- the distinct sets of random variables of all components -/
def prvSets (d : Distribution K) : List PrvSet := (d.toList.flatMap Component.prvSets).eraseDups

/-! ## product -/

/-- the product so far: a number and, once there are random variables, a parfactor -/
structure Partial (K : Type) where
  scalar : K
  parfactor : Option (Parfactor K)

/-- one more parfactor: without random variables its value counts once for every grounding, and
otherwise it is renamed to fit as far as possible and multiplied -/
def Partial.multiply (acc : Partial K) (p : Parfactor K) : Except Error (Partial K) :=
  if p.isConstant then
    let value := (p.factor.get? 0).getD 1
    .ok { acc with scalar := acc.scalar * Scalar.powRatio value p.groundingCount .one }
  else
    match acc.parfactor with
    | none => .ok { acc with parfactor := some p }
    | some q => (q.multiply ((q.align? p).getD p)).map fun r => { acc with parfactor := some r }

def Partial.multiplyAll (acc : Partial K) : List (Parfactor K) → Except Error (Partial K)
  | [] => .ok acc
  | p :: ps =>
    match acc.multiply p with
    | .error e => .error e
    | .ok acc => acc.multiplyAll ps

def Partial.multiplyComponents (acc : Partial K) : List (Component K) → Except Error (Partial K)
  | [] => .ok acc
  | c :: cs =>
    match c.toParfactors with
    | .error e => .error e
    | .ok ps =>
      match acc.multiplyAll ps with
      | .error e => .error e
      | .ok acc => acc.multiplyComponents cs

/-- all components in one parfactor -/
def product (d : Distribution K) : Except Error (Parfactor K) := do
  let acc ← (Partial.mk 1 none : Partial K).multiplyComponents d.toList
  let p ← match acc.parfactor with
    | some p => .ok p
    | none => Parfactor.make ∅ [] (some ⟨#[1]⟩)
  if Scalar.isOne acc.scalar then return p
  Parfactor.make p.constraints p.prvs (some (p.factor.map (· * acc.scalar)))

def text (d : Distribution K) : String := String.join (d.toList.map fun c => c.text ++ "\n")

end Distribution

/-! ## marginals -/

/-- a distribution, and the sets of random variables that elimination must keep -/
structure Marginal (K : Type) [Scalar K] where
  distribution : Distribution K
  kept : List PrvSet

namespace Marginal

/-- the kept sets, each once -/
def distinct (sets : List PrvSet) : List PrvSet := sets.eraseDups

def make (components : List (Component K)) (kept : List PrvSet) : Marginal K :=
  ⟨.ofList components, distinct kept⟩

def withDistribution (m : Marginal K) (d : Distribution K) : Marginal K :=
  { m with distribution := d }

/-- the product of both distributions, and the kept sets of both -/
def union (m n : Marginal K) : Marginal K :=
  ⟨(Distribution.ofList m.distribution.toList).addAll n.distribution.toList,
    distinct (m.kept ++ n.kept)⟩

def same (m n : Marginal K) : Bool := m.distribution.same n.distribution && m.kept == n.kept

/-- the set lies inside some kept one -/
def keeps (m : Marginal K) (s : PrvSet) : Bool :=
  m.kept.any fun q => (Extent.ofSet s).isWithin (.ofSet q)

/-- the sets of random variables that are still to be eliminated -/
def pending (m : Marginal K) : List PrvSet := m.distribution.prvSets.filter (!m.keeps ·)

def isDone (m : Marginal K) : Bool :=
  (m.distribution.toList.flatMap Component.prvSets).all m.keeps

/-- the potential of the kept random variables, once nothing else is left -/
def answer (m : Marginal K) : Except Error (Parfactor K) :=
  if m.isDone then m.distribution.product
  else .error (.notEliminable "marginal still holds non-preservable random variables")

def text (m : Marginal K) : String :=
  m.distribution.text ++ "preservable: " ++ "; ".intercalate (m.kept.map PrvSet.text)

end Marginal

end LiftedElimination
