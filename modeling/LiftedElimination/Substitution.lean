import LiftedElimination.SortedSet
import LiftedElimination.Error

/-!
# Substitutions

* `Binding`        a single replacement `X/t`;
* `Substitution`   bindings in strictly increasing order of their sources, so that substitutions
                   that replace alike are equal;
* `bind`, `ofBindings`, `compose`, `without`, `extend`   the ways to build one;
* `apply`          the image of a term; replacement is simultaneous.

Main statements: `mem_insertBinding` gives the bindings after one is added, and
`insertBinding_eq_none` says that only a source that is bound already is refused.
-/

namespace LiftedElimination

/-- the replacement of `source` by `target` -/
structure Binding where
  source : LogVar
  target : Term
deriving DecidableEq, Inhabited

namespace Binding

/-- `X/X` changes nothing -/
def isTrivial (b : Binding) : Bool := b.target == .var b.source

def text (b : Binding) : String := b.source.text ++ "/" ++ b.target.text

end Binding

/-- replacements of distinct variables, sorted by the variable -/
structure Substitution where
  bindings : List Binding
  increasing : bindings.Pairwise (fun a b => compare a.source b.source = .lt)

namespace Substitution

instance : DecidableEq Substitution := fun s t =>
  decidable_of_iff (s.bindings = t.bindings)
    ⟨fun h => by cases s; cases t; simp_all, fun h => by rw [h]⟩

/-- the substitution that replaces nothing -/
def identity : Substitution := ⟨[], .nil⟩

instance : Inhabited Substitution := ⟨identity⟩

@[simp] theorem bindings_identity : identity.bindings = [] := rfl

def single (b : Binding) : Substitution := ⟨[b], by simp⟩

@[simp] theorem bindings_single (b : Binding) : (single b).bindings = [b] := rfl

def isEmpty (s : Substitution) : Bool := s.bindings.isEmpty

def size (s : Substitution) : Nat := s.bindings.length

def domain (s : Substitution) : List LogVar := s.bindings.map Binding.source

/-- the image of a bound variable -/
def get? (s : Substitution) (x : LogVar) : Option Term :=
  (s.bindings.find? (·.source = x)).map Binding.target

def binds (s : Substitution) (x : LogVar) : Bool := (s.get? x).isSome

/-- no binding changes anything -/
def isIdentity (s : Substitution) : Bool := s.bindings.all Binding.isTrivial

/-- a bound variable becomes its image, any other term stays -/
def apply (s : Substitution) : Term → Term
  | .var x => (s.get? x).getD (.var x)
  | .const c => .const c

@[simp] theorem apply_const (s : Substitution) (c : Constant) :
    s.apply (.const c) = .const c := rfl

@[simp] theorem apply_identity (t : Term) : identity.apply t = t := by cases t <;> rfl

/-! ## adding a binding -/

/-- `b` put at its place, unless its source is there already -/
def insertBinding (b : Binding) : List Binding → Option (List Binding)
  | [] => some [b]
  | c :: cs =>
    match compare b.source c.source with
    | .lt => some (b :: c :: cs)
    | .eq => none
    | .gt => (insertBinding b cs).map (c :: ·)

theorem mem_insertBinding {b : Binding} {l m : List Binding} (h : insertBinding b l = some m)
    {c : Binding} : c ∈ m ↔ c = b ∨ c ∈ l := by
  induction l generalizing m with
  | nil =>
    cases h
    simp
  | cons d l ih =>
    unfold insertBinding at h
    split at h
    · cases h
      simp
    · cases h
    · obtain ⟨k, hk, rfl⟩ := Option.map_eq_some_iff.mp h
      rw [List.mem_cons, ih hk, List.mem_cons]
      exact ⟨fun h => h.elim (fun h => .inr (.inl h)) (·.imp_right .inr),
        fun h => h.elim (fun h => .inr (.inl h)) (·.imp_right .inr)⟩

theorem increasing_insertBinding {b : Binding} {l m : List Binding}
    (hl : l.Pairwise (fun a b => compare a.source b.source = .lt))
    (h : insertBinding b l = some m) :
    m.Pairwise (fun a b => compare a.source b.source = .lt) := by
  induction l generalizing m with
  | nil =>
    cases h
    simp
  | cons d l ih =>
    have hd := List.pairwise_cons.mp hl
    unfold insertBinding at h
    split at h
    · rename_i hbd
      cases h
      refine List.pairwise_cons.mpr ⟨fun c hc => ?_, hl⟩
      rcases List.mem_cons.mp hc with rfl | hc
      · exact hbd
      · exact Std.TransCmp.lt_trans hbd (hd.1 c hc)
    · cases h
    · rename_i hbd
      obtain ⟨k, hk, rfl⟩ := Option.map_eq_some_iff.mp h
      refine List.pairwise_cons.mpr ⟨fun c hc => ?_, ih hd.2 hk⟩
      rcases (mem_insertBinding hk).mp hc with rfl | hc
      · exact Std.OrientedCmp.lt_of_gt hbd
      · exact hd.1 c hc

theorem insertBinding_eq_none {b : Binding} {l : List Binding}
    (hl : l.Pairwise (fun a b => compare a.source b.source = .lt)) :
    insertBinding b l = none ↔ b.source ∈ l.map Binding.source := by
  induction l with
  | nil => simp [insertBinding]
  | cons d l ih =>
    have hd := List.pairwise_cons.mp hl
    unfold insertBinding
    rw [List.map_cons, List.mem_cons]
    split
    · rename_i hbd
      simp only [reduceCtorEq, false_iff]
      rintro (h | h)
      · rw [h] at hbd
        exact SortedSet.not_lt_self hbd
      · obtain ⟨c, hc, hcb⟩ := List.mem_map.mp h
        have hlt := Std.TransCmp.lt_trans hbd (hd.1 c hc)
        rw [hcb] at hlt
        exact SortedSet.not_lt_self hlt
    · rename_i hbd
      exact iff_of_true rfl (.inl (Std.LawfulEqOrd.eq_of_compare hbd))
    · rename_i hbd
      rw [Option.map_eq_none_iff, ih hd.2]
      refine ⟨.inr, fun h => h.elim (fun h => ?_) id⟩
      rw [h] at hbd
      have heq : compare d.source d.source = .eq := Std.ReflCmp.compare_self
      cases heq.symm.trans hbd

/-- `s` with one more binding; a source that is bound already is refused -/
def bind (s : Substitution) (b : Binding) : Except Error Substitution :=
  match h : insertBinding b s.bindings with
  | none => .error (.duplicateBinding b.source)
  | some l => .ok ⟨l, increasing_insertBinding s.increasing h⟩

/-- `s` with one more binding, or `s` itself if the source is bound already -/
def bindNew (s : Substitution) (b : Binding) : Substitution :=
  match s.bind b with
  | .error _ => s
  | .ok t => t

def bindMany (s : Substitution) : List Binding → Except Error Substitution
  | [] => .ok s
  | b :: bs =>
    match s.bind b with
    | .error e => .error e
    | .ok t => t.bindMany bs

/-- the substitution of the listed bindings; a source that comes twice is refused -/
def ofBindings (l : List Binding) : Except Error Substitution := identity.bindMany l

/-- the bindings of both, refused if they bind a common variable -/
def compose (s t : Substitution) : Except Error Substitution :=
  match t.domain.find? s.binds with
  | some x => .error (.overlappingDomains x)
  | none => s.bindMany t.bindings

/-! ## dropping and extending -/

/-- the bindings whose source does not satisfy `p` -/
def without (s : Substitution) (p : LogVar → Bool) : Substitution :=
  ⟨s.bindings.filter (fun b => !p b.source), s.increasing.filter _⟩

/-- every target mapped by `f` -/
def mapTargets (s : Substitution) (f : Term → Term) : Substitution :=
  ⟨s.bindings.map (fun b : Binding => ⟨b.source, f b.target⟩), by
    rw [List.pairwise_map]
    exact s.increasing⟩

/-- `b` put into every target, then `b` added -/
def extend (s : Substitution) (b : Binding) : Except Error Substitution :=
  (s.mapTargets (single b).apply).bind b

def text (s : Substitution) : String :=
  "\x7b" ++ ", ".intercalate (s.bindings.map Binding.text) ++ "\x7d"

end Substitution

end LiftedElimination
