import LiftedElimination.Proofs.Comparison
import LiftedElimination.Proofs.Matching
import LiftedElimination.Proofs.GroundingCount

/-!
# Containment of extents

An extent lies inside another one if its atom is an instance of the other atom whose constraints
the own ones entail.  The comparison looks for exactly that, on either side, so its verdict does not
depend on which of the two extents comes first.

* `Extent.Inside`         `a` is the instance of `b` under a reading of the variables of `b`;
* `Inside.trans`          instances of instances;
* `Atom.Joins`            a most general pair of readings that makes two atoms equal;
* `Covered.inside`        a side that needs no refinement is an instance of the other;
* `overlap?_comm`         whether extents overlap does not depend on their order;
* `left_eq_none_iff`, `right_eq_none_iff`   the sides that need no refinement lie inside the other;
* `compare_comm`          the verdict with the sides swapped.
-/

namespace LiftedElimination

/-! ## readings -/

/-- the term with its variables read as `r` says -/
def Term.read (r : LogVar → Term) : Term → Term
  | .var x => r x
  | .const c => .const c

namespace Term

@[simp] theorem read_var (r : LogVar → Term) (x : LogVar) : (var x).read r = r x := rfl

@[simp] theorem read_const (r : LogVar → Term) (c : Constant) : (const c).read r = .const c := rfl

theorem read_read (q r : LogVar → Term) (t : Term) :
    (t.read q).read r = t.read fun x => (q x).read r := by
  cases t <;> rfl

theorem read_apply (s : Substitution) (r : LogVar → Term) (t : Term) :
    (s.apply t).read r = t.read fun x => (s.apply (.var x)).read r := by
  cases t <;> rfl

end Term

namespace Atom

variable {a b : Atom} {q r : LogVar → Term} {theta : Substitution} {x : LogVar}

/-- the terms of the atom as `r` reads its variables -/
def read (a : Atom) (r : LogVar → Term) : List Term := a.terms.map (Term.read r)

theorem read_congr (h : ∀ x ∈ a.variables, q x = r x) : a.read q = a.read r := by
  refine List.map_congr_left fun t ht => ?_
  cases t with
  | const c => rfl
  | var x => exact h x (mem_variables.mpr ht)

/-- what a variable is read as is one of the terms -/
theorem mem_read (hx : x ∈ a.variables) : r x ∈ a.read r :=
  List.mem_map_of_mem (f := Term.read r) (mem_variables.mp hx)

theorem read_apply (a : Atom) (s : Substitution) (r : LogVar → Term) :
    (a.apply s).read r = a.read fun x => (s.apply (.var x)).read r := by
  rw [read, read, show (a.apply s).terms = a.terms.map s.apply from rfl, List.map_map]
  exact List.map_congr_left fun t _ => Term.read_apply s r t

/-- **The unifier is most general**: a reading that makes the atoms equal reads a term and its image
alike. -/
theorem read_of_mgu (h : a.mgu b = some theta) (hr : a.read r = b.read r) (t : Term) :
    (theta.apply t).read r = t.read r := by
  obtain ⟨sigma, hsigma, hread⟩ := mgu_of_map (h := Term.read r) (fun _ _ h => Term.const.inj h)
    (mgu_eq_some h).1.1 hr
  rw [h] at hsigma
  cases hsigma
  exact hread t

theorem read_mgu (h : a.mgu b = some theta) :
    (a.read fun x => theta.apply (.var x)) = b.read fun x => theta.apply (.var x) := by
  have hterms : ∀ c : Atom, (c.read fun x => theta.apply (.var x)) = c.terms.map theta.apply :=
    fun c => List.map_congr_left fun t _ => by cases t <;> rfl
  rw [hterms, hterms, (mgu_sound h).2]

theorem mgu_idempotent (h : a.mgu b = some theta) (t : Term) :
    theta.apply (theta.apply t) = theta.apply t := by
  have hread : ∀ u : Term, (u.read fun x => theta.apply (.var x)) = theta.apply u :=
    fun u => by cases u <;> rfl
  rw [← hread (theta.apply t), read_of_mgu h (read_mgu h), hread]

/-- the unifier brings in no variables -/
theorem mem_of_mgu_target (h : a.mgu b = some theta) {z : LogVar}
    (hx : theta.get? x = some (.var z)) : z ∈ a.variables ∨ z ∈ b.variables := by
  by_contra hz
  -- a reading that gives an outsider a constant of its own does not change under the unifier
  let r : LogVar → Term := fun w =>
    if w ∈ a.variables ∨ w ∈ b.variables then theta.apply (.var w) else .const default
  have hr : a.read r = b.read r := by
    have ha : a.read r = a.read fun w => theta.apply (.var w) :=
      read_congr fun w hw => if_pos (.inl hw)
    have hb : b.read r = b.read fun w => theta.apply (.var w) :=
      read_congr fun w hw => if_pos (.inr hw)
    rw [ha, hb, read_mgu h]
  have hmem : x ∈ a.variables ∨ x ∈ b.variables :=
    mem_of_mgu h (Option.isSome_iff_exists.mpr ⟨_, hx⟩)
  have happly : theta.apply (.var x) = .var z :=
    Substitution.apply_of_mem (Substitution.get?_eq_some.mp hx)
  have hread := read_of_mgu h hr (.var x)
  rw [happly, Term.read_var, Term.read_var, show r z = .const default from if_neg hz,
    show r x = theta.apply (.var x) from if_pos hmem, happly] at hread
  cases hread

/-! ## joint readings -/

/-- readings of the variables of two atoms that make them equal, and that all other ones refine -/
structure Joins (a b : Atom) (u v : LogVar → Term) : Prop where
  terms : a.read u = b.read v
  general : ∀ u' v', a.read u' = b.read v' → ∃ q : LogVar → Term,
    (∀ x ∈ a.variables, (u x).read q = u' x) ∧ ∀ y ∈ b.variables, (v y).read q = v' y

/-- `pop` is the population of the variables that are read as a given variable -/
def SortedBy (a : Atom) (u : LogVar → Term) (pop : LogVar → Population) : Prop :=
  ∀ x ∈ a.variables, ∀ z, u x = .var z → x.population = pop z

variable {u v u' v' : LogVar → Term} {pop : LogVar → Population}

theorem Joins.symm (h : Joins a b u v) : Joins b a v u where
  terms := h.terms.symm
  general v' u' h' := by
    obtain ⟨q, hu, hv⟩ := h.general u' v' h'.symm
    exact ⟨q, hv, hu⟩

/-- two most general readings only differ in the names of variables, so one keeps the populations
apart if the other one does -/
theorem Joins.sortedBy (h : Joins a b u v) (h' : Joins a b u' v') (ha : a.SortedBy u pop)
    (hb : b.SortedBy v pop) : ∃ pop', a.SortedBy u' pop' ∧ b.SortedBy v' pop' := by
  obtain ⟨q, hu, hv⟩ := h.general u' v' h'.terms
  obtain ⟨q', hu', hv'⟩ := h'.general u v h.terms
  have hvar : ∀ s t : Term, s.read q = t → t.read q' = s → ∀ z, t = .var z →
      ∃ w, s = .var w ∧ q' z = .var w := by
    rintro s t hst hts z rfl
    cases s with
    | var w => exact ⟨w, rfl, hts⟩
    | const c => cases hst
  refine ⟨fun z => ((q' z).var?.map pop).getD default, fun x hx z hz => ?_, fun y hy z hz => ?_⟩
  · obtain ⟨w, hw, hqw⟩ := hvar _ _ (hu x hx) (hu' x hx) z hz
    show x.population = ((q' z).var?.map pop).getD default
    rw [hqw]
    exact ha x hx w hw
  · obtain ⟨w, hw, hqw⟩ := hvar _ _ (hv y hy) (hv' y hy) z hz
    show y.population = ((q' z).var?.map pop).getD default
    rw [hqw]
    exact hb y hy w hw

end Atom

namespace Extent

variable {a b c e : Extent} {q r : LogVar → Term} {o : Overlap} {theta : Substitution}
  {s t : Term} {l' r' : Option Refinement}

/-! ## instances of extents -/

/-- the terms differ in every instance of the extent, as far as the comparison sees it -/
def KeepsApart (e : Extent) (s t : Term) : Prop :=
  match Constraint.between s t with
  | some k => e.entails k = true
  | none => s ≠ t

theorem keepsApart_comm : e.KeepsApart s t ↔ e.KeepsApart t s := by
  unfold KeepsApart
  rw [Constraint.between_comm]
  split
  · exact Iff.rfl
  · exact ne_comm

theorem KeepsApart.entails {k : Constraint} (h : e.KeepsApart s t)
    (hk : Constraint.between s t = some k) : e.entails k = true := by
  rw [KeepsApart, hk] at h
  exact h

/-- the individuals outside of the population of a variable differ from it -/
theorem keepsApart_outsider {x : LogVar} {d : Constant} (h : d ∉ x.population) :
    e.KeepsApart (.var x) (.const d) := by
  show (e.constraints.contains _ || decide (d ∉ x.population)) = true
  rw [decide_eq_true h, Bool.or_true]

/-- `a` is an instance of `b`: with the variables of `b` read as `r` says, the atoms are equal, and
`a` entails the constraints of `b` -/
structure Inside (a b : Extent) (r : LogVar → Term) : Prop where
  functor : a.atom.functor = b.atom.functor
  terms : b.atom.read r = a.atom.terms
  var : ∀ y ∈ b.atom.variables, ∀ x, r y = .var x → x.population = y.population
  const : ∀ y ∈ b.atom.variables, ∀ d, r y = .const d → d ∈ y.population
  apart : ∀ k ∈ b.constraints, a.KeepsApart (r k.first) (k.second.read r)

namespace Inside

/-- a variable is read as a term of the instance -/
theorem mem_variables (h : Inside a b r) {x y : LogVar} (hy : y ∈ b.atom.variables)
    (hx : r y = .var x) : x ∈ a.atom.variables := by
  have hmem := Atom.mem_read (r := r) hy
  rw [h.terms, hx] at hmem
  exact Atom.mem_variables.mpr hmem

/-- what `b` keeps apart, its instance keeps apart -/
theorem keepsApart (h : Inside a b r) (hs : ∀ x, s = .var x → x ∈ b.atom.variables)
    (ht : ∀ x, t = .var x → x ∈ b.atom.variables) (hst : b.KeepsApart s t) :
    a.KeepsApart (s.read r) (t.read r) := by
  -- an inequality with a variable on the left
  have hvar : ∀ x ∈ b.atom.variables, ∀ u, (∀ z, u = .var z → z ∈ b.atom.variables) →
      b.KeepsApart (.var x) u → a.KeepsApart (r x) (u.read r) := by
    intro x hx u hu hxu
    have hk : Constraint.between (.var x) u = some (.ordered x u) := rfl
    have hentails := hxu.entails hk
    rw [entails, Bool.or_eq_true] at hentails
    rcases hentails with hmem | hout
    · have hapart := h.apart _ (SortedSet.contains_iff_mem.mp hmem)
      rcases Constraint.sides_of_between hk with ⟨h1, h2⟩ | ⟨h1, h2⟩
      · rwa [Term.var.inj h1, h2] at hapart
      · rw [h2, ← Term.read_var r (Constraint.first _), h1] at hapart
        exact keepsApart_comm.mp hapart
    · cases u with
      | var y =>
        -- the sides are both variables in either order
        rw [Constraint.ordered_var] at hout
        by_cases hlt : Ord.compare y x = .lt
        · rw [if_pos hlt] at hout
          exact absurd hout Bool.false_ne_true
        · rw [if_neg hlt] at hout
          exact absurd hout Bool.false_ne_true
      | const d =>
        have hd : d ∉ x.population := of_decide_eq_true hout
        cases hr : r x with
        | var z => exact keepsApart_outsider (h.var x hx z hr ▸ hd)
        | const d' =>
          show Term.const d' ≠ .const d
          rintro heq
          exact hd (Term.const.inj heq ▸ h.const x hx d' hr)
  cases s with
  | var x => exact hvar x (hs x rfl) t ht hst
  | const d =>
    cases t with
    | var y => exact keepsApart_comm.mp (hvar y (ht y rfl) _ hs (keepsApart_comm.mp hst))
    | const d' => exact hst

/-- **Instances of instances are instances.** -/
theorem trans (hab : Inside a b r) (hbc : Inside b c q) (hc : c.IsClosed) :
    Inside a c fun z => (q z).read r where
  functor := hab.functor.trans hbc.functor
  terms := by
    rw [← hab.terms, Atom.read, Atom.read, ← hbc.terms, Atom.read, List.map_map]
    exact List.map_congr_left fun t _ => (Term.read_read q r t).symm
  var y hy x hx := by
    cases hq : q y with
    | const d =>
      rw [hq] at hx
      cases hx
    | var w =>
      rw [hq] at hx
      exact (hab.var w (hbc.mem_variables hy hq) x hx).trans (hbc.var y hy w hq)
  const y hy d hd := by
    cases hq : q y with
    | const d' =>
      rw [hq] at hd
      cases hd
      exact hbc.const y hy _ hq
    | var w =>
      rw [hq] at hd
      exact hbc.var y hy w hq ▸ hab.const w (hbc.mem_variables hy hq) d hd
  apart k hk := by
    have hmem : ∀ x ∈ k.variables, ∀ w, q x = .var w → w ∈ b.atom.variables := fun x hx w hw =>
      hbc.mem_variables (hc x (ConstraintSet.mem_variables.mpr ⟨k, hk, hx⟩)) hw
    have hapart := hab.keepsApart (hmem _ (Constraint.mem_variables.mpr (.inl rfl)))
      (fun w hw => ?_) (hbc.apart k hk)
    · rwa [Term.read_read] at hapart
    · cases hsecond : k.second with
      | const d =>
        rw [hsecond] at hw
        cases hw
      | var y =>
        rw [hsecond] at hw
        exact hmem y (Constraint.mem_variables.mpr (.inr hsecond)) w hw

/-- an extent is an instance of itself, if its inequalities are written the canonical way -/
theorem refl (h : b.constraints.IsOrdered) : Inside b b .var where
  functor := rfl
  terms := by
    rw [Atom.read, show Term.read .var = id from funext fun t => by cases t <;> rfl, List.map_id]
  var y _ x hx := by rw [Term.var.inj hx]
  const y _ d hd := nomatch hd
  apart k hk := by
    rw [show k.second.read .var = k.second by cases k.second <;> rfl]
    show b.entails (.ordered k.first k.second) = true
    rw [h k hk, entails, SortedSet.contains_iff_mem.mpr hk, Bool.true_or]

end Inside

/-! ## names apart -/

/-- a renamed extent is an instance of what it was -/
theorem inside_of_apartFrom (b e : Extent) :
    Inside (b.apartFrom e).1 b fun y => (b.away e).apply (.var y) := by
  have hren := away_isRenaming b e
  refine ⟨rfl, ?_, fun y _ x hx => ?_, fun y _ d hd => ?_, fun k hk => ?_⟩
  · exact List.map_congr_left fun t _ => by cases t <;> rfl
  · obtain ⟨z, hz, hpop⟩ := hren y
    cases Term.var.inj (hx.symm.trans hz)
    exact hpop
  · obtain ⟨z, hz, -⟩ := hren y
    cases hd.symm.trans hz
  · obtain ⟨z, hz, -⟩ := hren k.first
    have hread : (k.second.read fun y => (b.away e).apply (.var y))
        = (b.away e).apply k.second := by
      cases k.second <;> rfl
    have happly : k.apply (b.away e) = some (.ordered z ((b.away e).apply k.second)) := by
      rw [Constraint.apply, hz]
      rfl
    have hmem : Constraint.ordered z ((b.away e).apply k.second) ∈ (b.apartFrom e).1.constraints :=
      SortedSet.mem_filterMap.mpr ⟨k, hk, happly⟩
    rw [hread, hz]
    show entails _ (Constraint.ordered z ((b.away e).apply k.second)) = true
    rw [entails, SortedSet.contains_iff_mem.mpr hmem, Bool.true_or]

/-- an instance of an extent is one of the renamed extent -/
theorem Inside.apartFrom (h : Inside a b r) (hb : b.IsClosed) (e : Extent) :
    ∃ q, Inside a (b.apartFrom e).1 q := by
  obtain ⟨q, hq⟩ := Substitution.exists_renamed (D := Term) (away_injOn b e) r
  have hpop : ∀ z ∈ (b.apartFrom e).1.atom.variables, ∃ y ∈ b.atom.variables,
      q z = r y ∧ z.population = y.population := by
    intro z hz
    obtain ⟨y, hy, hyz⟩ := Atom.mem_variables_apply.mp hz
    have hyz : (b.away e).apply (.var y) = .var z := hyz
    obtain ⟨w, hw, hpop⟩ := away_isRenaming b e y
    cases Term.var.inj (hyz.symm.trans hw)
    exact ⟨y, hy, hq y hy z hyz, hpop⟩
  have hread : ∀ t : Term, (∀ y, t = .var y → y ∈ b.atom.variables) →
      ((b.away e).apply t).read q = t.read r := by
    intro t ht
    cases t with
    | const d => rfl
    | var y =>
      obtain ⟨z, hz, -⟩ := away_isRenaming b e y
      rw [hz, Term.read_var, hq y (ht y rfl) z hz]
      rfl
  refine ⟨q, h.functor, ?_, fun z hz x hx => ?_, fun z hz d hd => ?_, fun k hk => ?_⟩
  · rw [← h.terms]
    exact (Atom.read_apply b.atom (b.away e) q).trans
      (Atom.read_congr fun y hy => hread (.var y) fun w hw => Term.var.inj hw ▸ hy)
  · obtain ⟨y, hy, hzy, hpop⟩ := hpop z hz
    rw [hpop, h.var y hy x (hzy ▸ hx)]
  · obtain ⟨y, hy, hzy, hpop⟩ := hpop z hz
    exact hpop ▸ h.const y hy d (hzy ▸ hd)
  · obtain ⟨c, hc, hck⟩ := SortedSet.mem_filterMap.mp hk
    have hck : Constraint.between ((b.away e).apply (.var c.first)) ((b.away e).apply c.second)
        = some k := hck
    have hvars : ∀ y ∈ c.variables, y ∈ b.atom.variables := fun y hy =>
      hb y (ConstraintSet.mem_variables.mpr ⟨c, hc, hy⟩)
    have hapart := h.apart c hc
    rw [← Term.read_var r, ← hread (.var c.first) fun y hy =>
        Term.var.inj hy ▸ hvars _ (Constraint.mem_variables.mpr (.inl rfl)),
      ← hread c.second fun y hy => hvars y (Constraint.mem_variables.mpr (.inr hy))] at hapart
    rcases Constraint.sides_of_between hck with ⟨h1, h2⟩ | ⟨h1, h2⟩
    · rwa [← h1, ← h2] at hapart
    · rw [← h1, ← h2] at hapart
      exact keepsApart_comm.mp hapart

/-- `a` is an instance of the renamed extent just if it is one of `b` -/
theorem exists_inside_apartFrom_iff (hb : b.IsClosed) :
    (∃ r, Inside a (b.apartFrom e).1 r) ↔ ∃ r, Inside a b r :=
  ⟨fun ⟨_, h⟩ => ⟨_, h.trans (inside_of_apartFrom b e) hb⟩, fun ⟨_, h⟩ => h.apartFrom hb e⟩

/-- the renamed extent is an instance of `a` just if `b` is one -/
theorem exists_apartFrom_inside_iff (ha : a.IsClosed) (hb : b.IsClosed)
    (hordered : b.constraints.IsOrdered) :
    (∃ r, Inside (b.apartFrom e).1 a r) ↔ ∃ r, Inside b a r := by
  refine ⟨fun ⟨_, h⟩ => ?_, fun ⟨_, h⟩ => ⟨_, (inside_of_apartFrom b e).trans h ha⟩⟩
  obtain ⟨_, hself⟩ := (Inside.refl hordered).apartFrom hb e
  exact ⟨_, hself.trans h ha⟩

/-! ## the unifier of two extents -/

/-- the unifier with the renamed extent, as a pair of readings of the two -/
theorem joins_of_mgu (h : a.atom.mgu (b.apartFrom e).1.atom = some theta)
    (hdisjoint : ∀ z ∈ (b.apartFrom e).1.atom.variables, z ∉ a.atom.variables) :
    Atom.Joins a.atom b.atom (fun x => theta.apply (.var x))
      fun y => theta.apply ((b.away e).apply (.var y)) where
  terms := by
    have hren : ∀ t : Term, ((b.away e).apply t).read (fun x => theta.apply (.var x))
        = theta.apply ((b.away e).apply t) := fun t => by
      cases (b.away e).apply t <;> rfl
    rw [Atom.read_mgu h]
    refine (Atom.read_apply b.atom (b.away e) _).trans (Atom.read_congr fun y _ => hren (.var y))
  general u' v' huv := by
    obtain ⟨q, hq⟩ := Substitution.exists_renamed (D := Term) (away_injOn b e) v'
    -- the variables of the two sides are apart, so one reading does for both
    let r : LogVar → Term := fun z => if z ∈ a.atom.variables then u' z else q z
    have hown : ∀ x ∈ a.atom.variables, r x = u' x := fun x hx => if_pos hx
    have hother : ∀ y ∈ b.atom.variables, ((b.away e).apply (.var y)).read r = v' y := by
      intro y hy
      obtain ⟨z, hz, -⟩ := away_isRenaming b e y
      have hmem : z ∈ (b.apartFrom e).1.atom.variables :=
        Atom.mem_variables_apply.mpr ⟨y, hy, hz⟩
      rw [hz, Term.read_var, show r z = q z from if_neg (hdisjoint z hmem), hq y hy z hz]
    have hr : a.atom.read r = (b.apartFrom e).1.atom.read r := by
      rw [Atom.read_congr hown, huv]
      exact ((Atom.read_apply b.atom (b.away e) r).trans (Atom.read_congr hother)).symm
    refine ⟨r, fun x hx => ?_, fun y hy => ?_⟩
    · rw [Atom.read_of_mgu h hr, Term.read_var, hown x hx]
    · rw [Atom.read_of_mgu h hr, hother y hy]

theorem mgu_of_overlap? (h : a.overlap? b = some o) :
    a.atom.mgu (b.apartFrom a).1.atom = some o.theta := by
  simp only [overlap?] at h
  split at h
  · split at h
    · cases h
    · split at h
      · split at h
        · cases h
        · split at h
          · cases h
            assumption
          · cases h
      · cases h
  · cases h

/-- **Whether two extents overlap does not depend on their order.** -/
theorem overlap?_comm (ha : a.IsClosed) (hb : b.IsClosed) (h : a.overlap? b = some o) :
    ∃ o', b.overlap? a = some o' := by
  have hover := overlaps_of_overlap? h
  obtain ⟨g, hga, hgb⟩ := exists_common_of_overlap? ha hb h
  refine exists_overlap hb ha hgb hga fun theta hmgu x y hxy => ?_
  have hjoins := joins_of_mgu (mgu_of_overlap? h) fun z hz => notMem_of_mem_apartFrom hz
  have hjoins' := (joins_of_mgu hmgu fun z hz => notMem_of_mem_apartFrom hz).symm
  have hown : a.atom.SortedBy (fun x => o.theta.apply (.var x)) LogVar.population :=
    fun x _ z hz => (population_image hover.populations hz).symm
  obtain ⟨pop, hleft, hright⟩ := hjoins.sortedBy hjoins' hown fun y _ z hz => by
    obtain ⟨w, hw, hpop⟩ := away_isRenaming b a y
    rw [hw] at hz
    rw [← hpop, population_image hover.populations hz]
  -- both kinds of variables of the other unifier have the populations of what they are read as
  have hsorted : ∀ w, w ∈ b.atom.variables ∨ w ∈ (a.apartFrom b).1.atom.variables →
      ∀ z, theta.apply (.var w) = .var z → w.population = pop z := by
    rintro w (hw | hw) z hz
    · exact hright w hw z hz
    · obtain ⟨x, hx, hxw⟩ := Atom.mem_variables_apply.mp hw
      have hxw : (a.away b).apply (.var x) = .var w := hxw
      obtain ⟨w', hw', hpop⟩ := away_isRenaming a b x
      cases Term.var.inj (hxw.symm.trans hw')
      rw [hpop]
      exact hleft x hx z ((congrArg theta.apply hxw).trans hz)
  have himage : theta.apply (.var x) = .var y :=
    Substitution.apply_of_mem (Substitution.get?_eq_some.mp hxy)
  have hfixed : theta.apply (.var y) = .var y := by
    rw [← himage, Atom.mgu_idempotent hmgu]
  rw [hsorted y (Atom.mem_of_mgu_target hmgu hxy) y hfixed, hsorted x
    (Atom.mem_of_mgu hmgu (Option.isSome_iff_exists.mpr ⟨_, hxy⟩)) y himage]

/-! ## sides that need no refinement -/

namespace Covered

/-- what the variables of the other side are read as: the term of the own side with the same image -/
def reading (a : Extent) (theta : Substitution) (y : LogVar) : Term :=
  (toOwn theta a.atom.variables (theta.apply (.var y))).getD default

/-- a term of the other side is read as the one of this side with the same image -/
theorem read_reading (h : Covered a b theta) {u : Term}
    (hu : ∀ y, u = .var y → y ∈ b.atom.variables) :
    toOwn theta a.atom.variables (theta.apply u) = some (u.read (reading a theta))
      ∧ theta.apply (u.read (reading a theta)) = theta.apply u
      ∧ ∀ x, u.read (reading a theta) = .var x → x ∈ a.atom.variables := by
  obtain ⟨t, ht, htu, hmem, -⟩ := h.exists_partner hu fun _ => default
  have hr : u.read (reading a theta) = t := by
    cases u with
    | const d => exact Option.some.inj ht
    | var y =>
      show (toOwn theta a.atom.variables (theta.apply (.var y))).getD default = t
      rw [ht]
      rfl
  rw [hr]
  exact ⟨ht, htu, hmem⟩

theorem reading_var (h : Covered a b theta) {y : LogVar} (hy : y ∈ b.atom.variables) :
    theta.apply (reading a theta y) = theta.apply (.var y)
      ∧ ∀ x, reading a theta y = .var x → x ∈ a.atom.variables :=
  (h.read_reading fun _ hz => Term.var.inj hz ▸ hy).2

theorem terms_reading (h : Covered a b theta) : b.atom.read (reading a theta) = a.atom.terms := by
  let f : Term → Term := fun v => (toOwn theta a.atom.variables v).getD default
  calc b.atom.terms.map (Term.read (reading a theta))
      = (b.atom.terms.map theta.apply).map f := by
        rw [List.map_map]
        exact List.map_congr_left fun u _ => by cases u <;> rfl
    _ = (a.atom.terms.map theta.apply).map f := by rw [h.terms]
    _ = a.atom.terms.map id := by
        rw [List.map_map]
        refine List.map_congr_left fun t ht => ?_
        show (toOwn theta a.atom.variables (theta.apply t)).getD default = t
        rw [h.toOwn_own ht]
        rfl
    _ = a.atom.terms := List.map_id _

theorem population_reading (h : Covered a b theta) {x y : LogVar} (hy : y ∈ b.atom.variables)
    (hx : reading a theta y = .var x) : x.population = y.population := by
  obtain ⟨himage, hmem⟩ := h.reading_var hy
  rw [hx] at himage
  obtain ⟨z, hz⟩ := h.var x (hmem x hx)
  rw [← population_image h.populations hz,
    ← population_image h.populations (himage.symm.trans hz)]

theorem mem_population_reading (h : Covered a b theta) {y : LogVar} {d : Constant}
    (hy : y ∈ b.atom.variables) (hd : reading a theta y = .const d) : d ∈ y.population := by
  have himage := (h.reading_var hy).1
  rw [hd] at himage
  rcases population_apply h.populations y with ⟨z, hz, -⟩ | ⟨d', hd', hmem⟩
  · rw [hz] at himage
    cases himage
  · rw [hd'] at himage
    cases himage
    exact hmem

/-- the constraints of the other side are entailed, or hold between different constants -/
theorem keepsApart_reading (h : Covered a b theta) {k : Constraint} (hk : k ∈ b.constraints) :
    a.KeepsApart (reading a theta k.first) (k.second.read (reading a theta)) := by
  have hvars : ∀ x ∈ k.variables, x ∈ b.atom.variables := fun x hx =>
    h.closed x (ConstraintSet.mem_variables.mpr ⟨k, hk, hx⟩)
  obtain ⟨hs, hsu, -⟩ := h.read_reading (u := .var k.first) fun y hy =>
    Term.var.inj hy ▸ hvars _ (Constraint.mem_variables.mpr (.inl rfl))
  obtain ⟨ht, htu, -⟩ := h.read_reading (u := k.second) fun y hy =>
    hvars y (Constraint.mem_variables.mpr (.inr hy))
  rw [← Term.read_var (reading a theta)]
  unfold KeepsApart
  split
  · rename_i k' hk'
    exact h.entailed k hk k' (by rw [toOwnConstraint, hs, ht]; exact hk')
  · intro heq
    have hviolated := h.kept k hk
    rw [Constraint.isViolatedBy, ← hsu, ← htu, heq, beq_self_eq_true] at hviolated
    cases hviolated

/-- a side that is covered is an instance of the other one -/
theorem inside (h : Covered a b theta) : Inside a b (reading a theta) where
  functor := h.functor
  terms := h.terms_reading
  var _ hy _ hx := h.population_reading hy hx
  const _ hy _ hd := h.mem_population_reading hy hd
  apart _ hk := h.keepsApart_reading hk

end Covered

namespace Inside

/-- the variables of `a` read as themselves, and those of the other side as `r` says -/
def beside (a : Extent) (r : LogVar → Term) (z : LogVar) : Term :=
  if z ∈ a.atom.variables then .var z else r z

theorem beside_own {x : LogVar} (hx : x ∈ a.atom.variables) : beside a r x = .var x := if_pos hx

theorem beside_other {y : LogVar} (hy : y ∉ a.atom.variables) : beside a r y = r y := if_neg hy

/-- the reading of both sides makes the atoms equal -/
theorem read_beside (h : Inside a b r) (hdisjoint : ∀ z ∈ b.atom.variables, z ∉ a.atom.variables) :
    a.atom.read (beside a r) = b.atom.read (beside a r) := by
  rw [Atom.read_congr fun _ hx => beside_own hx,
    Atom.read_congr fun y hy => beside_other (r := r) (hdisjoint y hy), h.terms]
  exact (Inside.refl (b := ⟨a.atom, ∅, none⟩) nofun).terms

/-- a term of this side with the image of a term of the other side is what that is read as -/
theorem eq_read_of_toOwn (hdisjoint : ∀ z ∈ b.atom.variables, z ∉ a.atom.variables)
    (hfix : ∀ t : Term, (theta.apply t).read (beside a r) = t.read (beside a r)) {t u : Term}
    (hu : ∀ y, u = .var y → y ∈ b.atom.variables)
    (ht : toOwn theta a.atom.variables (theta.apply u) = some t) : t = u.read r := by
  have hread : (theta.apply u).read (beside a r) = u.read r := by
    rw [hfix]
    cases u with
    | const d => rfl
    | var y => exact beside_other (hdisjoint y (hu y rfl))
  rcases toOwn_eq_some ht with ⟨d, hd, rfl⟩ | ⟨x, z, hz, rfl, hx, hxz⟩
  · rw [← hread, hd]
    rfl
  · rw [← hread, hz, ← hxz, hfix]
    exact (beside_own hx).symm

/-- an instance has no variable with the image of a constant or of another variable -/
theorem images_eq_none
    (hfix : ∀ t : Term, (theta.apply t).read (beside a r) = t.read (beside a r)) :
    constantImage? theta a.atom.variables = none
      ∧ sharedImage? theta [] a.atom.variables = none := by
  have hown : ∀ x ∈ a.atom.variables, (theta.apply (.var x)).read (beside a r) = .var x :=
    fun x hx => (hfix (.var x)).trans (beside_own hx)
  constructor
  · rw [Option.eq_none_iff_forall_ne_some]
    rintro ⟨x, d⟩ hconstant
    obtain ⟨hx, hd⟩ := constantImage?_eq_some hconstant
    have hread := hown x hx
    rw [hd] at hread
    cases hread
  · rw [Option.eq_none_iff_forall_ne_some]
    rintro ⟨x, y⟩ hshared
    have hnodup : ([] ++ a.atom.variables).Nodup := Atom.nodup_variables a.atom
    obtain ⟨hx, hy, hne, hxy⟩ := sharedImage?_eq_some hnodup hshared
    have hread := hown x hx
    rw [hxy, hown y hy] at hread
    exact hne (Term.var.inj hread).symm

/-- an instance needs no refinement under a most general unifier -/
theorem refinement?_eq_none (h : Inside a b r) (hb : b.IsClosed)
    (hdisjoint : ∀ z ∈ b.atom.variables, z ∉ a.atom.variables)
    (hgeneral : ∀ q : LogVar → Term, a.atom.read q = b.atom.read q → ∀ t : Term,
      (theta.apply t).read q = t.read q) : a.refinement? b theta = none := by
  have hfix := hgeneral _ (h.read_beside hdisjoint)
  obtain ⟨hconstant, hshared⟩ := images_eq_none hfix
  unfold refinement?
  dsimp only
  rw [hconstant, hshared]
  dsimp only
  rw [Option.map_eq_none_iff, List.findSome?_eq_none_iff]
  intro k hk
  rw [Option.filter_eq_none_iff]
  intro k' hk'
  have hvars : ∀ y ∈ k.variables, y ∈ b.atom.variables := fun y hy =>
    hb y (ConstraintSet.mem_variables.mpr ⟨k, hk, hy⟩)
  unfold toOwnConstraint at hk'
  split at hk'
  · rename_i u v hu hv
    obtain rfl := eq_read_of_toOwn hdisjoint hfix (fun y hy =>
      Term.var.inj hy ▸ hvars _ (Constraint.mem_variables.mpr (.inl rfl))) hu
    obtain rfl := eq_read_of_toOwn hdisjoint hfix
      (fun y hy => hvars y (Constraint.mem_variables.mpr (.inr hy))) hv
    rw [(h.apart k hk).entails hk']
    decide
  · cases hk'

end Inside

/-- the left side needs no refinement just if it is an instance of the right one -/
theorem left_eq_none_iff (hb : b.IsClosed) (h : a.overlap? b = some o) :
    a.refinement? o.right o.theta = none ↔ ∃ r, Inside a b r := by
  have hover := overlaps_of_overlap? h
  rw [← exists_inside_apartFrom_iff (e := a) hb, ← hover.right]
  refine ⟨fun hnone => ⟨_, (hover.covered hb hnone).inside⟩, fun ⟨r, hr⟩ => ?_⟩
  have hmgu := mgu_of_overlap? h
  rw [← hover.right] at hmgu
  exact hr.refinement?_eq_none (hover.right ▸ isClosed_apartFrom hb)
    (fun z hz => notMem_of_mem_apartFrom (hover.right ▸ hz)) fun q hq t =>
      Atom.read_of_mgu hmgu hq t

/-- the right side needs no refinement just if it is an instance of the left one -/
theorem right_eq_none_iff (ha : a.IsClosed) (hb : b.IsClosed) (hordered : b.constraints.IsOrdered)
    (h : a.overlap? b = some o) :
    o.right.refinement? a o.theta = none ↔ ∃ r, Inside b a r := by
  have hover := overlaps_of_overlap? h
  rw [← exists_apartFrom_inside_iff (e := a) ha hb hordered, ← hover.right]
  refine ⟨fun hnone => ⟨_, (hover.covered_right ha hnone).inside⟩, fun ⟨r, hr⟩ => ?_⟩
  have hmgu := mgu_of_overlap? h
  rw [← hover.right] at hmgu
  exact hr.refinement?_eq_none ha
    (fun z hz hz' => notMem_of_mem_apartFrom (hover.right ▸ hz') hz) fun q hq t =>
      Atom.read_of_mgu hmgu hq.symm t

/-- the verdict on overlapping extents says which side is an instance of the other one -/
theorem compare_eq_overlapping_iff (ha : a.IsClosed) (hb : b.IsClosed)
    (hordered : b.constraints.IsOrdered) {l' r' : Option Refinement}
    (h : a.compare b = .overlapping l' r') :
    (l' = none ↔ ∃ r, Inside a b r) ∧ (r' = none ↔ ∃ r, Inside b a r) := by
  obtain ⟨o, ho, rfl, rfl⟩ := compare_eq_overlapping h
  exact ⟨left_eq_none_iff hb ho,
    Option.map_eq_none_iff.trans (right_eq_none_iff ha hb hordered ho)⟩

theorem compare_disjoint_comm (ha : a.IsClosed) (hb : b.IsClosed) :
    a.compare b = .disjoint ↔ b.compare a = .disjoint := by
  have hnone : ∀ {c e : Extent}, c.IsClosed → e.IsClosed → c.overlap? e = none →
      e.overlap? c = none := by
    intro c e hc he h
    rw [Option.eq_none_iff_forall_ne_some]
    intro o ho
    obtain ⟨o', ho'⟩ := overlap?_comm he hc ho
    rw [h] at ho'
    cases ho'
  rw [compare_eq_disjoint_iff, compare_eq_disjoint_iff]
  exact ⟨hnone ha hb, hnone hb ha⟩

/-- **The verdict does not depend on the order of the extents**: the same sides need refinement. -/
theorem compare_comm (ha : a.IsClosed) (hb : b.IsClosed) (hao : a.constraints.IsOrdered)
    (hbo : b.constraints.IsOrdered) {l r : Option Refinement} (h : a.compare b = .overlapping l r) :
    ∃ l' r', b.compare a = .overlapping l' r' ∧ (l' = none ↔ r = none)
      ∧ (r' = none ↔ l = none) := by
  cases hba : b.compare a with
  | disjoint =>
    rw [(compare_disjoint_comm ha hb).mpr hba] at h
    cases h
  | overlapping l' r' =>
    obtain ⟨hl, hr⟩ := compare_eq_overlapping_iff ha hb hbo h
    obtain ⟨hl', hr'⟩ := compare_eq_overlapping_iff hb ha hao hba
    exact ⟨l', r', rfl, hl'.trans hr.symm, hr'.trans hl.symm⟩

end Extent

end LiftedElimination
