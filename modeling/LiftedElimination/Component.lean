import LiftedElimination.Aggregation

/-!
# Components

A component of a distribution is a parfactor or an aggregation parfactor; `Component` lifts what
both can do.
-/

namespace LiftedElimination

/-- a factor of a distribution -/
inductive Component (K : Type) where
  | standard (p : Parfactor K)
  | aggregation (a : Aggregation K)

namespace Component

variable {K : Type}

def standard? : Component K → Option (Parfactor K)
  | standard p => some p
  | aggregation _ => none

def aggregation? : Component K → Option (Aggregation K)
  | standard _ => none
  | aggregation a => some a

def constraints : Component K → ConstraintSet
  | standard p => p.constraints
  | aggregation a => a.constraints

def prvs : Component K → List Prv
  | standard p => p.prvs
  | aggregation a => a.prvs

/-- the logical variables that a split may bind -/
def logVars : Component K → List LogVar
  | standard p => p.logVars
  | aggregation a => a.logVars

def factor : Component K → Factor K
  | standard p => p.factor
  | aggregation a => a.factor

def prvSets : Component K → List PrvSet
  | standard p => p.prvSets
  | aggregation a => a.prvSets

def apply (s : Substitution) : Component K → Option (Component K)
  | standard p => (p.apply s).map standard
  | aggregation a => (a.apply s).map aggregation

def isSplittable (b : Binding) : Component K → Bool
  | standard p => p.isSplittable b
  | aggregation a => a.isSplittable b

def split (b : Binding) : Component K → Except Error (Split (Component K))
  | standard p => (p.split b).map fun s => ⟨standard s.fragment, standard s.residual⟩
  | aggregation a => (a.split b).map fun s => ⟨aggregation s.fragment, aggregation s.residual⟩

/-- the normal form; `none` if there is no grounding -/
def normalize : Component K → Except Error (Option (Component K))
  | standard p => p.normalize.map (·.map standard)
  | aggregation a => a.normalize.map (·.map aggregation)

variable [Scalar K]

/-- the product with an identical copy -/
def squared : Component K → Component K
  | standard p => standard p.squared
  | aggregation a => aggregation a.squared

def toParfactors : Component K → Except Error (List (Parfactor K))
  | standard p => .ok [p]
  | aggregation a => a.toParfactors

def text : Component K → String
  | standard p => p.text
  | aggregation a => a.text

/-! ## order -/

/-- parfactors before aggregation parfactors -/
def order : Component K → Component K → Ordering
  | standard p, standard q => compare p q
  | standard _, aggregation _ => .lt
  | aggregation _, standard _ => .gt
  | aggregation a, aggregation b => compare a b

instance : Ord (Component K) := ⟨order⟩

instance : Std.TransOrd (Component K) where
  eq_swap {p q} := match p, q with
    | standard p, standard q => (Std.OrientedCmp.eq_swap : compare p q = (compare q p).swap)
    | standard _, aggregation _ => rfl
    | aggregation _, standard _ => rfl
    | aggregation a, aggregation b => (Std.OrientedCmp.eq_swap : compare a b = (compare b a).swap)
  isLE_trans {p q r} := match p, q, r with
    | standard p, standard q, standard r =>
      (Std.TransCmp.isLE_trans : (compare p q).isLE → (compare q r).isLE → (compare p r).isLE)
    | standard _, _, aggregation _ => fun _ _ => rfl
    | standard _, aggregation _, standard _ => fun _ h => nomatch h
    | aggregation _, standard _, _ => fun h _ => nomatch h
    | aggregation _, aggregation _, standard _ => fun _ h => nomatch h
    | aggregation a, aggregation b, aggregation c =>
      (Std.TransCmp.isLE_trans : (compare a b).isLE → (compare b c).isLE → (compare a c).isLE)

/-- equal in the order, so that tables are compared entry by entry -/
def same (p q : Component K) : Bool := compare p q == .eq

end Component

end LiftedElimination
