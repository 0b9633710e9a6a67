import LiftedElimination.Proofs.Reading
import LiftedElimination.Proofs.Table
import LiftedElimination.Proofs.Exact
import LiftedElimination.Distribution

/-!
# The meaning of a marginal

A parfactor stands for the product, over its groundings, of the table entry selected by its random
variables.  An aggregation parfactor stands, for each grounding, for the weights of all parents,
provided that the child has the aggregate of their values.  A list of components stands for the
product of what they stand for.

* `Parfactor.meaning`, `Aggregation.meaning`, `Component.meaning`, `Marginal.meaning`;
* `scope`             the ground random variables that the meaning depends on;
* `Parfactor.Sound`   the formulas are checked and exact, and the table has the right size;
* `Parfactor.Accurate`   formulas count what their domain size says, maybe nobody;
* `Parfactor.Readable`   the same for formulas that may count nobody;
* `below_read`        the digits of a legal world lie in the table;
* `Parfactor.Selects`  the table has an entry for every grounding in a world.
-/

namespace LiftedElimination

open Finset

variable {K : Type}

/-! ## parfactors -/

namespace Parfactor

/-- the groundings that satisfy the constraints -/
def solutions (p : Parfactor K) : Finset Valuation := p.constraints.solutions p.logVars

/-- the digits of the table under a grounding, in a world -/
def digits (p : Parfactor K) (γ : Valuation) (w : World) : List Nat := p.prvs.map (·.read γ w)

/-- the ground random variables that the entry under a grounding depends on -/
def owned (p : Parfactor K) (γ : Valuation) : Finset RandomVariable :=
  p.prvs.toFinset.biUnion (·.owned γ)

def scope (p : Parfactor K) : Finset RandomVariable := p.solutions.biUnion p.owned

theorem mem_owned {p : Parfactor K} {γ : Valuation} {v : RandomVariable} :
    v ∈ p.owned γ ↔ ∃ q ∈ p.prvs, v ∈ q.owned γ := by
  simp only [owned, mem_biUnion, List.mem_toFinset]

theorem mem_scope {p : Parfactor K} {v : RandomVariable} :
    v ∈ p.scope ↔ ∃ γ ∈ p.solutions, v ∈ p.owned γ := mem_biUnion

theorem owned_subset_scope {p : Parfactor K} {γ : Valuation} (hγ : γ ∈ p.solutions) :
    p.owned γ ⊆ p.scope := subset_biUnion_of_mem _ hγ

theorem owned_subset_owned {p : Parfactor K} {q : Prv} (hq : q ∈ p.prvs) (γ : Valuation) :
    q.owned γ ⊆ p.owned γ := fun _ hv => mem_owned.mpr ⟨q, hq, hv⟩

/-- the constraints mention only logical variables of the parfactor -/
theorem mem_logVars {p : Parfactor K} {x : LogVar} :
    x ∈ p.logVars ↔ (∃ q ∈ p.prvs, x ∈ q.freeVars) ∨ x ∈ p.constraints.variables := by
  rw [logVars, mem_addVars, prvVars, mem_varsOf]

theorem mem_solutions {p : Parfactor K} {γ : Valuation} : γ ∈ p.solutions ↔
    ((∀ x ∈ p.logVars, γ x ∈ x.population) ∧ p.constraints.Holds γ)
      ∧ ∀ x ∉ p.logVars, γ x = default := by
  rw [solutions, ConstraintSet.mem_solutions,
    Valuation.solves_iff_holds fun x hx => mem_logVars.mpr (.inr hx)]

/-- the formulas are checked ones, and none binds a logical variable of the parfactor -/
structure Proper (p : Parfactor K) : Prop where
  valid : ∀ q ∈ p.prvs, q.Valid
  bound : ∀ f, Prv.count f ∈ p.prvs → f.bound ∉ p.logVars

/-- the formulas are checked and exact, the bound variables are not free, and the sizes of the table
are those of the ranges -/
structure Sound (p : Parfactor K) : Prop where
  valid : ∀ q ∈ p.prvs, q.Valid
  satisfiable : ∀ c ∈ p.constraints, c.isContradiction = false
  bound : ∀ f, Prv.count f ∈ p.prvs → f.bound ∉ p.logVars
  exact : ∀ γ ∈ p.solutions, ∀ q ∈ p.prvs, q.Exact γ
  tabular : p.solutions.Nonempty → 0 < p.sizes.prod → ∀ q ∈ p.prvs, q.Tabular

theorem Sound.proper {p : Parfactor K} (hp : p.Sound) : p.Proper := ⟨hp.valid, hp.bound⟩

/-- the formulas are checked and accurate, and the sizes of the table are those of the ranges: every
legal world selects an entry under every grounding -/
structure Readable (p : Parfactor K) : Prop where
  valid : ∀ q ∈ p.prvs, q.Valid
  accurate : ∀ γ ∈ p.solutions, ∀ q ∈ p.prvs, q.Accurate γ
  tabular : p.solutions.Nonempty → 0 < p.sizes.prod → ∀ q ∈ p.prvs, q.Tabular

/-- every formula is accurate under every grounding -/
def Accurate (p : Parfactor K) : Prop :=
  ∀ γ ∈ p.solutions, ∀ f, Prv.count f ∈ p.prvs → f.Accurate γ

theorem Accurate.prv {p : Parfactor K} (h : p.Accurate) {γ : Valuation} (hγ : γ ∈ p.solutions)
    {q : Prv} (hq : q ∈ p.prvs) : q.Accurate γ := by
  cases q with
  | atom a => trivial
  | count f => exact h γ hγ f hq

theorem Sound.accurate {p : Parfactor K} (hp : p.Sound) : p.Accurate := fun γ hγ _ hf =>
  (hp.exact γ hγ _ hf).accurate

theorem Sound.readable {p : Parfactor K} (hp : p.Sound) : p.Readable :=
  ⟨hp.valid, fun _ hγ _ hq => hp.accurate.prv hγ hq, hp.tabular⟩

section
variable [ExactScalar K]

/-- the entry selected under a grounding, in a world -/
def value (p : Parfactor K) (γ : Valuation) (w : World) : K :=
  p.factor.lookup p.sizes (p.digits γ w)

/-- the product of the selected entries over all groundings -/
def meaning (p : Parfactor K) (w : World) : K := ∏ γ ∈ p.solutions, p.value γ w

end

variable {p : Parfactor K} {γ δ : Valuation} {w w' : World}

theorem digits_congr (hp : ∀ q ∈ p.prvs, q.Valid) (h : ∀ x ∈ p.prvVars, γ x = δ x) :
    p.digits γ w = p.digits δ w :=
  List.map_congr_left fun q hq => Prv.read_congr (hp q hq) fun x hx =>
    h x (mem_varsOf.mpr ⟨q, hq, hx⟩)

theorem owned_congr (hp : ∀ q ∈ p.prvs, q.Valid) (h : ∀ x ∈ p.logVars, γ x = δ x) :
    p.owned γ = p.owned δ := by
  refine biUnion_congr rfl fun q hq => ?_
  have hq := List.mem_toFinset.mp hq
  exact Prv.owned_congr (hp q hq) fun x hx => h x (mem_logVars.mpr (.inl ⟨q, hq, hx⟩))

theorem digits_congr_world (h : ∀ v ∈ p.owned γ, w v = w' v) : p.digits γ w = p.digits γ w' :=
  List.map_congr_left fun _ hq => Prv.read_congr_world fun v hv =>
    h v (owned_subset_owned hq γ hv)

theorem prod_rangeSize_pos {prvs : List Prv} (h : ∀ v ∈ prvs, 0 < v.rangeSize) :
    0 < (prvs.map Prv.rangeSize).prod :=
  List.prod_pos fun n hn => by
    obtain ⟨v, hv, rfl⟩ := List.mem_map.mp hn
    exact h v hv

/-- in a table that fits into memory the range sizes fit in 64 bits -/
theorem rangeSize_lt_of_le {prvs : List Prv} (h : (prvs.map Prv.rangeSize).prod ≤ Index.maxEntries)
    (hpos : 0 < (prvs.map Prv.rangeSize).prod) {q : Prv} (hq : q ∈ prvs) : q.rangeSize < maxWord :=
  calc q.rangeSize ≤ (prvs.map Prv.rangeSize).prod :=
        Nat.le_of_dvd hpos (List.dvd_prod (List.mem_map_of_mem hq))
    _ ≤ Index.maxEntries := h
    _ < maxWord := by decide

/-- in a table that fits into memory the range sizes are exact -/
theorem tabular_of_le {prvs : List Prv} (h : (prvs.map Prv.rangeSize).prod ≤ Index.maxEntries)
    (hpos : 0 < (prvs.map Prv.rangeSize).prod) : ∀ q ∈ prvs, q.Tabular := fun _ hq =>
  Prv.tabular_of_lt (rangeSize_lt_of_le h hpos hq)

theorem sizes_pos (hp : p.Readable) (hγ : γ ∈ p.solutions) (hw : w.Legal (p.owned γ)) :
    0 < p.sizes.prod := prod_rangeSize_pos fun q hq =>
  Prv.rangeSize_pos (hp.accurate γ hγ q hq) (hw.mono (owned_subset_owned hq γ))

/-- a legal world selects digits below the sizes of the table -/
theorem below_read (hp : p.Readable) (hγ : γ ∈ p.solutions) (hw : w.Legal (p.owned γ)) :
    Index.Below (p.digits γ w) p.sizes := by
  have htab := hp.tabular ⟨γ, hγ⟩ (sizes_pos hp hγ hw)
  exact List.forall₂_map_left_iff.mpr (List.forall₂_map_right_iff.mpr (List.forall₂_same.mpr
    fun q hq => Prv.read_lt (hp.accurate γ hγ q hq) (hw.mono (owned_subset_owned hq γ)) (htab q hq)))

/-- in the world every grounding selects an entry of the table -/
def Selects (p : Parfactor K) (w : World) : Prop :=
  ∀ γ ∈ p.solutions, Index.Below (p.digits γ w) p.sizes

theorem selects_iff : p.Selects w ↔ ∀ γ ∈ p.solutions, ∀ q ∈ p.prvs, q.read γ w < q.rangeSize :=
  forall₂_congr fun _ _ => List.forall₂_map_left_iff.trans
    (List.forall₂_map_right_iff.trans List.forall₂_same)

/-- legal worlds select entries -/
theorem Readable.selects (hp : p.Readable) (hw : w.Legal p.scope) : p.Selects w := fun _ hγ =>
  below_read hp hγ (hw.mono (owned_subset_scope hγ))

section
variable [ExactScalar K]

theorem value_congr_world (h : ∀ v ∈ p.owned γ, w v = w' v) : p.value γ w = p.value γ w' := by
  rw [value, value, digits_congr_world h]

/-- **The meaning depends on the scope only.** -/
theorem meaning_congr (h : ∀ v ∈ p.scope, w v = w' v) : p.meaning w = p.meaning w' :=
  prod_congr rfl fun _ hγ => value_congr_world fun v hv => h v (owned_subset_scope hγ hv)

end

end Parfactor

/-! ## aggregation parfactors -/

/-- the aggregate of the values of `s`: the largest one, or the least one below `size`; the bottom
and the top of the range for nobody -/
def Operator.combine {α : Type} (op : Operator) (size : Nat) (s : Finset α) (value : α → Nat) :
    Nat :=
  if op.isUpper then s.sup value else s.fold min (size - 1) value

namespace Aggregation

/-- the parents as a counting formula over the extra variable -/
def formula (a : Aggregation K) : CountingFormula := ⟨a.extra, a.parent, a.constraintsOnExtra⟩

/-- the groundings of the other variables that satisfy the constraints on these -/
def solutions (a : Aggregation K) : Finset Valuation := a.constraints.solutions a.logVars

def owned (a : Aggregation K) (γ : Valuation) : Finset RandomVariable :=
  (a.formula.counted γ).image (a.formula.member γ)
    ∪ insert (a.child.groundVar γ) (a.context.toFinset.image (·.groundVar γ))

def scope (a : Aggregation K) : Finset RandomVariable := a.solutions.biUnion a.owned

/-- the sizes of the table -/
def sizes (a : Aggregation K) : List Nat := a.parent.range.size :: a.context.map (·.range.size)

/-- the aggregate of the parents -/
def aggregate (a : Aggregation K) (γ : Valuation) (w : World) : Nat :=
  a.operator.combine a.parent.range.size (a.formula.counted γ) fun c => w (a.formula.member γ c)

section
variable [ExactScalar K]

/-- the weight of one parent together with the context -/
def weight (a : Aggregation K) (γ : Valuation) (w : World) : K :=
  a.factor.lookup a.sizes (w (a.parent.groundVar γ) :: a.context.map fun c => w (c.groundVar γ))

/-- the weights of all parents, if the child has the aggregate of their values -/
def value (a : Aggregation K) (γ : Valuation) (w : World) : K :=
  (∏ c ∈ a.formula.counted γ, a.weight (Function.update γ a.extra c) w)
    * if w (a.child.groundVar γ) = a.aggregate γ w then 1 else 0

def meaning (a : Aggregation K) (w : World) : K := ∏ γ ∈ a.solutions, a.value γ w

end

/-- the extra variable belongs to the parent alone, the parents are counted exactly, and the table
has an entry for every value of the parent and the context -/
structure Sound (a : Aggregation K) : Prop where
  extra_mem : a.extra ∈ a.parent.variables
  child : ∀ x ∈ a.child.variables, x ∈ a.parent.variables ∧ x ≠ a.extra
  context : ∀ b ∈ a.context, a.extra ∉ b.variables
  range : a.parent.range = a.child.range
  exact : ∀ γ ∈ a.solutions, a.formula.Exact γ
  size : 0 < a.sizes.prod → a.factor.size = a.sizes.prod
  small : a.factor.size ≤ Index.maxEntries

end Aggregation

/-! ## components and marginals -/

namespace Component

def Sound : Component K → Prop
  | standard p => p.Sound
  | aggregation a => a.Sound

/-- the groundings of a component that satisfy its constraints -/
def solutions : Component K → Finset Valuation
  | standard p => p.solutions
  | aggregation a => a.solutions

def scope : Component K → Finset RandomVariable
  | standard p => p.scope
  | aggregation a => a.scope

def meaning [ExactScalar K] : Component K → World → K
  | standard p => p.meaning
  | aggregation a => a.meaning

end Component

/-- the ground random variables of a list of components -/
def scopeOf (l : List (Component K)) : Finset RandomVariable :=
  l.foldr (fun c s => c.scope ∪ s) ∅

theorem mem_scopeOf {l : List (Component K)} {v : RandomVariable} :
    v ∈ scopeOf l ↔ ∃ c ∈ l, v ∈ c.scope := by
  induction l with
  | nil => simp [scopeOf]
  | cons c l ih =>
    rw [scopeOf, List.foldr_cons, ← scopeOf, mem_union, ih]
    simp

/-- the product of the components -/
def meaningOf [ExactScalar K] (l : List (Component K)) (w : World) : K :=
  (l.map (·.meaning w)).prod

@[simp] theorem meaningOf_nil [ExactScalar K] (w : World) :
    meaningOf ([] : List (Component K)) w = 1 := rfl

@[simp] theorem meaningOf_cons [ExactScalar K] (c : Component K) (l : List (Component K))
    (w : World) : meaningOf (c :: l) w = c.meaning w * meaningOf l w := List.prod_cons

@[simp] theorem meaningOf_append [ExactScalar K] (l m : List (Component K)) (w : World) :
    meaningOf (l ++ m) w = meaningOf l w * meaningOf m w := by
  rw [meaningOf, List.map_append, List.prod_append]
  rfl

/-- `l` means what `c` means, in fewer random variables, and is as sound -/
structure Restates [ExactScalar K] (c : Component K) (l : List (Component K)) : Prop where
  sound : ∀ d ∈ l, d.Sound
  scope : ∀ d ∈ l, d.scope ⊆ c.scope
  meaning : ∀ w : World, w.Legal c.scope → meaningOf l w = c.meaning w

section
variable [ExactScalar K] {c d : Component K} {l : List (Component K)}

theorem Restates.refl (hc : c.Sound) : Restates c [c] := by
  refine ⟨fun d hd => ?_, fun d hd => ?_, fun w _ => ?_⟩
  · rw [List.mem_singleton.mp hd]
    exact hc
  · rw [List.mem_singleton.mp hd]
  · rw [meaningOf_cons, meaningOf_nil, mul_one]

/-- one component in place of another one -/
theorem Restates.trans (h : Restates c [d]) (hl : Restates d l) : Restates c l := by
  have hscope : d.scope ⊆ c.scope := h.scope d (List.mem_singleton.mpr rfl)
  refine ⟨hl.sound, fun e he => (hl.scope e he).trans hscope, fun w hw => ?_⟩
  have hmeaning := h.meaning w hw
  rw [meaningOf_cons, meaningOf_nil, mul_one] at hmeaning
  rw [hl.meaning w (hw.mono hscope), hmeaning]

end

namespace Marginal

variable [ExactScalar K]

def scope (m : Marginal K) : Finset RandomVariable := scopeOf m.distribution.toList

/-- **The ground meaning**: the product, over all components and all their groundings, of the
selected entries. -/
def meaning (m : Marginal K) (w : World) : K := meaningOf m.distribution.toList w

end Marginal

end LiftedElimination
