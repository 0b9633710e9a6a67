import LiftedElimination.Increasing

/-!
# Individuals, populations, logical variables and terms

* `Constant`     a named individual;
* `Population`   an ordered list of individuals, the domain of a variable;
* `LogVar`       a logical variable: a name and a population, both part of its identity;
* `Term`         a variable or a constant, the variables first in the order.

The order of each type is lexicographic in its fields, names by code point.
-/

namespace LiftedElimination

/-! ## constants -/

/-- an individual of some population -/
structure Constant where
  name : String
deriving DecidableEq, Inhabited

namespace Constant

instance : Ord Constant := ⟨compareOn Constant.name⟩

instance : Std.TransOrd Constant := inferInstanceAs (Std.TransCmp (compareOn Constant.name))

instance : Std.LawfulEqOrd Constant where
  compare_self {a} := (Std.ReflCmp.compare_self : compare a.name a.name = .eq)
  eq_of_compare {a b} h := by
    cases a; cases b
    exact congrArg _ (Std.LawfulEqOrd.eq_of_compare (α := String) h)

def text (c : Constant) : String := c.name

end Constant

/-! ## populations -/

/-- the finite, ordered domain of a logical variable -/
structure Population where
  individuals : List Constant
deriving Inhabited

namespace Population

theorem individuals_inj {p q : Population} : p.individuals = q.individuals ↔ p = q :=
  ⟨fun h => by cases p; cases q; exact congrArg _ h, congrArg _⟩

/-- the populations of two variables are often one object, which settles that they are equal -/
instance : DecidableEq Population := fun p q =>
  withPtrEqDecEq p q fun _ => decidable_of_iff (p.individuals = q.individuals) individuals_inj

/-- the order of the lists; equal populations are seen first -/
def order (p q : Population) : Ordering :=
  if p = q then .eq else compare p.individuals q.individuals

instance : Ord Population := ⟨order⟩

theorem compare_eq (p q : Population) : compare p q = compare p.individuals q.individuals := by
  show order p q = _
  unfold order
  split
  · rename_i h
    rw [h]
    exact Std.ReflCmp.compare_self.symm
  · rfl

instance : Std.TransOrd Population where
  eq_swap {p q} := by
    rw [compare_eq, compare_eq]
    exact Std.OrientedCmp.eq_swap
  isLE_trans {p q r} := by
    rw [compare_eq, compare_eq, compare_eq]
    exact Std.TransCmp.isLE_trans

instance : Std.LawfulEqOrd Population where
  compare_self {p} := by
    rw [compare_eq]
    exact Std.ReflCmp.compare_self
  eq_of_compare {p q} h := by
    rw [compare_eq] at h
    exact individuals_inj.mp (Std.LawfulEqOrd.eq_of_compare h)

instance : Membership Constant Population := ⟨fun p c => c ∈ p.individuals⟩

instance (c : Constant) (p : Population) : Decidable (c ∈ p) :=
  inferInstanceAs (Decidable (c ∈ p.individuals))

theorem mem_individuals {c : Constant} {p : Population} : c ∈ p.individuals ↔ c ∈ p := Iff.rfl

/-- shorter names first, and names of one length by code point; the order in which individuals are
numbered -/
def numberingOrder : Constant → Constant → Ordering :=
  compareLex (compareOn fun c => c.name.utf8ByteSize) compare

/-- the listed individuals, of equal ones only the first; individuals in the order of their numbers
are distinct as they stand -/
def ofList (l : List Constant) : Population :=
  ⟨if isIncreasing numberingOrder l then l else l.eraseDups⟩

theorem eraseDups_eq_self {l : List Constant} (h : l.Nodup) : l.eraseDups = l := by
  induction l with
  | nil => rfl
  | cons c l ih =>
    obtain ⟨hc, hl⟩ := List.nodup_cons.mp h
    have hf : l.filter (fun d => !d == c) = l := List.filter_eq_self.mpr fun d hd => by
      simp only [Bool.not_eq_true', beq_eq_false_iff_ne]
      exact fun hdc => hc (hdc ▸ hd)
    rw [List.eraseDups_cons, hf, ih hl]

theorem individuals_ofList (l : List Constant) : (ofList l).individuals = l.eraseDups := by
  unfold ofList
  split
  · rename_i h
    have : Std.TransCmp numberingOrder := inferInstanceAs (Std.TransCmp (compareLex _ _))
    exact (eraseDups_eq_self (nodup_of_isIncreasing h)).symm
  · rfl

theorem mem_ofList {c : Constant} {l : List Constant} : c ∈ ofList l ↔ c ∈ l := by
  rw [← mem_individuals, individuals_ofList]
  exact List.mem_eraseDups

/-- `stem1`, `stem2`, up to `stemN` -/
def numbered (stem : String) (n : Nat) : Population :=
  ⟨(List.range n).map fun i => ⟨stem ++ Nat.repr (i + 1)⟩⟩

def size (p : Population) : Nat := p.individuals.length

def isEmpty (p : Population) : Bool := p.individuals.isEmpty

def get? (p : Population) (i : Nat) : Option Constant := p.individuals[i]?

/-- the first individual of `p` that is none of `q` -/
def outsider? (p q : Population) : Option Constant :=
  if p = q then none else p.individuals.find? (· ∉ q)

theorem outsider?_eq (p q : Population) : p.outsider? q = p.individuals.find? (· ∉ q) := by
  unfold outsider?
  split
  · rename_i h
    subst h
    refine (List.find?_eq_none.mpr fun c hc => ?_).symm
    simpa using mem_individuals.mp hc
  · rfl

/-- every individual of `p` is one of `q` -/
def isWithin (p q : Population) : Bool := (p.outsider? q).isNone

theorem isWithin_iff {p q : Population} : p.isWithin q = true ↔ ∀ c ∈ p, c ∈ q := by
  rw [isWithin, outsider?_eq, Option.isNone_iff_eq_none, List.find?_eq_none]
  simp only [decide_not, Bool.not_eq_true', decide_eq_false_iff_not, Decidable.not_not]
  exact Iff.rfl

end Population

/-! ## logical variables -/

/-- a logical variable over a finite population -/
structure LogVar where
  name : String
  population : Population
deriving DecidableEq, Inhabited

namespace LogVar

instance : Ord LogVar := ⟨compareLex (compareOn LogVar.name) (compareOn LogVar.population)⟩

instance : Std.TransOrd LogVar :=
  inferInstanceAs (Std.TransCmp (compareLex (compareOn LogVar.name) (compareOn LogVar.population)))

instance : Std.LawfulEqOrd LogVar where
  compare_self {a} := compareLex_eq_eq.mpr
    ⟨(Std.ReflCmp.compare_self : compare a.name a.name = .eq),
      (Std.ReflCmp.compare_self : compare a.population a.population = .eq)⟩
  eq_of_compare {a b} h := by
    obtain ⟨hn, hp⟩ := compareLex_eq_eq.mp h
    cases a; cases b
    obtain rfl := Std.LawfulEqOrd.eq_of_compare (α := String) hn
    obtain rfl := Std.LawfulEqOrd.eq_of_compare (α := Population) hp
    rfl

def text (x : LogVar) : String := x.name

/-- the same population under another name -/
def renamed (x : LogVar) (name : String) : LogVar := { x with name }

@[simp] theorem renamed_population (x : LogVar) (name : String) :
    (x.renamed name).population = x.population := rfl

end LogVar

/-- the elements of `l` put behind `vars`, each only if it is not there yet -/
def addVars (vars : List LogVar) (l : List LogVar) : List LogVar :=
  l.foldl (fun vs x => if x ∈ vs then vs else vs ++ [x]) vars

@[simp] theorem addVars_nil (vars : List LogVar) : addVars vars [] = vars := rfl

@[simp] theorem addVars_cons (vars : List LogVar) (x : LogVar) (l : List LogVar) :
    addVars vars (x :: l) = addVars (if x ∈ vars then vars else vars ++ [x]) l := rfl

theorem mem_addVars {vars l : List LogVar} {y : LogVar} :
    y ∈ addVars vars l ↔ y ∈ vars ∨ y ∈ l := by
  induction l generalizing vars with
  | nil => simp
  | cons x l ih =>
    rw [addVars_cons, ih, List.mem_cons]
    split
    · rename_i hx
      exact ⟨fun h => h.elim .inl (fun h => .inr (.inr h)),
        fun h => h.elim .inl (fun h => h.elim (fun h => .inl (h ▸ hx)) .inr)⟩
    · rw [List.mem_append, List.mem_singleton]
      exact ⟨fun h => h.elim (fun h => h.elim .inl (fun h => .inr (.inl h)))
          (fun h => .inr (.inr h)),
        fun h => h.elim (fun h => .inl (.inl h)) (fun h => h.elim (fun h => .inl (.inr h)) .inr)⟩

theorem nodup_addVars {vars l : List LogVar} (h : vars.Nodup) : (addVars vars l).Nodup := by
  induction l generalizing vars with
  | nil => simpa using h
  | cons x l ih =>
    rw [addVars_cons]
    split
    · exact ih h
    · rename_i hx
      refine ih (List.nodup_append.mpr ⟨h, by simp, ?_⟩)
      intro a ha b hb
      rw [List.mem_singleton] at hb
      exact fun hab => hx (hb ▸ hab ▸ ha)

/-- as many variables, and those of `a` all among those of `b` -/
def sameVars (a b : List LogVar) : Bool := a.length == b.length && a.all (· ∈ b)

/-! ## terms -/

/-- a logical variable or a constant -/
inductive Term where
  | var (x : LogVar)
  | const (c : Constant)
deriving DecidableEq, Inhabited

namespace Term

/-- variables before constants -/
def order : Term → Term → Ordering
  | var x, var y => compare x y
  | var _, const _ => .lt
  | const _, var _ => .gt
  | const c, const d => compare c d

instance : Ord Term := ⟨order⟩

instance : Std.TransOrd Term where
  eq_swap {a b} := match a, b with
    | var x, var y => (Std.OrientedCmp.eq_swap : compare x y = (compare y x).swap)
    | var _, const _ => rfl
    | const _, var _ => rfl
    | const c, const d => (Std.OrientedCmp.eq_swap : compare c d = (compare d c).swap)
  isLE_trans {a b c} := match a, b, c with
    | var x, var y, var z =>
      (Std.TransCmp.isLE_trans : (compare x y).isLE → (compare y z).isLE → (compare x z).isLE)
    | var _, _, const _ => fun _ _ => rfl
    | var _, const _, var _ => fun _ h => nomatch h
    | const _, var _, _ => fun h _ => nomatch h
    | const _, const _, var _ => fun _ h => nomatch h
    | const c, const d, const e =>
      (Std.TransCmp.isLE_trans : (compare c d).isLE → (compare d e).isLE → (compare c e).isLE)

instance : Std.LawfulEqOrd Term where
  compare_self {a} := match a with
    | var x => (Std.ReflCmp.compare_self : compare x x = .eq)
    | const c => (Std.ReflCmp.compare_self : compare c c = .eq)
  eq_of_compare {a b} h := by
    cases a <;> cases b
    · exact congrArg var (Std.LawfulEqOrd.eq_of_compare (α := LogVar) h)
    · cases h
    · cases h
    · exact congrArg const (Std.LawfulEqOrd.eq_of_compare (α := Constant) h)

def var? : Term → Option LogVar
  | var x => some x
  | const _ => none

def const? : Term → Option Constant
  | var _ => none
  | const c => some c

@[simp] theorem var?_eq_some {t : Term} {x : LogVar} : t.var? = some x ↔ t = var x := by
  cases t <;> simp [var?]

@[simp] theorem const?_eq_some {t : Term} {c : Constant} : t.const? = some c ↔ t = const c := by
  cases t <;> simp [const?]

def isVar (t : Term) : Bool := t.var?.isSome

def isConst (t : Term) : Bool := t.const?.isSome

def text : Term → String
  | var x => x.text
  | const c => c.text

end Term

end LiftedElimination
