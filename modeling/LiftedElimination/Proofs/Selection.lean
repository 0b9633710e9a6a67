import LiftedElimination.Proofs.Progress

/-!
# The choice among the candidates

A shattered marginal without aggregation parfactors has two groups of candidates, the lifted
operations and the groundings.  The choice goes through each group once, and keeps the best candidate
so far and the least cost that the limit has refused.  Costs are compared as numbers of entries, with
one infinite number above all others.

* `Cost.entries`, `Operation.rank`   costs and operations in the linear orders of the library;
* `FirstLeast`                 the first operation of the least rank among those with a property, and
                               `cheapest?_filter_eq_some` that the choice finds it;
* `Chosen`, `Refused`          what the choice answers, and `chooseCandidate_cases` that it is one of
                               them;
* `next_eq_first_least`        **what the next operation is**, and when there is none.
-/

namespace LiftedElimination

/-! ## costs as numbers -/

namespace Cost

/-- the number of entries, infinite past the limit -/
def entries : Cost → WithTop Nat
  | finite n => n
  | infinite => ⊤

theorem entries_injective : Function.Injective entries := by
  intro a b h
  cases a <;> cases b
  · exact congrArg finite (WithTop.coe_injective h)
  · exact absurd h (WithTop.coe_ne_top)
  · exact absurd h.symm (WithTop.coe_ne_top)
  · rfl

theorem compare_eq_lt {a b : Cost} : compare a b = .lt ↔ a.entries < b.entries := by
  cases a <;> cases b
  · exact (Nat.compare_eq_lt).trans WithTop.coe_lt_coe.symm
  · exact iff_of_true rfl (WithTop.coe_lt_top _)
  · exact iff_of_false nofun not_top_lt
  · exact iff_of_false nofun (lt_irrefl _)

theorem lt_iff {a b : Cost} : a.lt b = true ↔ a.entries < b.entries := by
  rw [Cost.lt, beq_iff_eq, compare_eq_lt]

theorem le_iff {a b : Cost} : a.le b = true ↔ a.entries ≤ b.entries := by
  rw [Cost.le, ← Ordering.ne_gt_iff_isLE, ← not_lt, ← compare_eq_lt, not_iff_not]
  exact Std.OrientedCmp.gt_iff_lt

theorem entries_min (a b : Cost) : (Cost.min a b).entries = Min.min a.entries b.entries := by
  unfold Cost.min
  split
  · rename_i h
    exact (min_eq_right (lt_iff.mp h).le).symm
  · rename_i h
    exact (min_eq_left (not_lt.mp fun hlt => h (lt_iff.mpr hlt))).symm

end Cost

variable {K : Type} [Scalar K]

/-! ## the first of the cheapest operations -/

namespace Operation

/-- cheaper operations first, and of equally cheap ones those of a kind that goes first -/
def rank (op : Operation K) : WithTop Nat ×ₗ Nat := toLex (op.cost.entries, op.kind.priority)

theorem precedes_iff {a b : Operation K} : a.precedes b = true ↔ a.rank < b.rank := by
  rw [rank, rank, Prod.Lex.toLex_lt_toLex, ← Cost.compare_eq_lt, precedes]
  split
  · rename_i h
    exact iff_of_true rfl (.inl h)
  · rename_i h
    have heq : a.cost = b.cost := Std.LawfulEqOrd.eq_of_compare h
    rw [decide_eq_true_eq, h]
    simp [heq]
  · rename_i h
    have hne : a.cost ≠ b.cost := fun heq => by
      rw [heq] at h
      cases h.symm.trans (Std.ReflCmp.compare_self (a := b.cost))
    rw [h]
    simp [Cost.entries_injective.ne hne]

end Operation

namespace Engine

/-- of the operations with the property `P`, the first one of the least rank -/
def FirstLeast (P : Operation K → Prop) (ops : List (Operation K)) (op : Operation K) : Prop :=
  P op ∧ ∃ front back, ops = front ++ op :: back ∧ (∀ a ∈ front, P a → op.rank < a.rank)
    ∧ ∀ a ∈ back, P a → op.rank ≤ a.rank

namespace FirstLeast

variable {P : Operation K → Prop} {ops : List (Operation K)} {op a b : Operation K}

theorem holds (h : FirstLeast P ops op) : P op := h.1

theorem mem (h : FirstLeast P ops op) : op ∈ ops := by
  obtain ⟨-, front, back, rfl, -, -⟩ := h
  exact List.mem_append_right _ List.mem_cons_self

theorem rank_le (h : FirstLeast P ops op) (ha : a ∈ ops) (hP : P a) : op.rank ≤ a.rank := by
  obtain ⟨-, front, back, rfl, hfront, hback⟩ := h
  rcases List.mem_append.mp ha with ha | ha
  · exact (hfront a ha hP).le
  · rcases List.mem_cons.mp ha with rfl | ha
    · exact le_rfl
    · exact hback a ha hP

/-- there is one such operation -/
theorem unique (ha : FirstLeast P ops a) (hb : FirstLeast P ops b) : a = b := by
  obtain ⟨hPa, front, back, rfl, hfront, hback⟩ := ha
  obtain ⟨hPb, front', back', heq, hfront', hback'⟩ := hb
  rcases List.append_eq_append_iff.mp heq with ⟨as, rfl, has⟩ | ⟨as, rfl, has⟩
  · cases as with
    | nil => exact (List.cons.inj has).1
    | cons c as =>
      obtain ⟨rfl, rfl⟩ := List.cons.inj has
      have hlt := hfront' a (by simp) hPa
      exact absurd (hback b (by simp) hPb) hlt.not_ge
  · cases as with
    | nil => exact (List.cons.inj has).1.symm
    | cons c as =>
      obtain ⟨rfl, rfl⟩ := List.cons.inj has
      have hlt := hfront b (by simp) hPb
      exact absurd (hback' a (by simp) hPa) hlt.not_ge

/-- what goes first in the list and is not better changes nothing -/
theorem cons_of_not (h : FirstLeast P ops op) (ha : P a → op.rank < a.rank) :
    FirstLeast P (a :: ops) op := by
  obtain ⟨hP, front, back, rfl, hfront, hback⟩ := h
  refine ⟨hP, a :: front, back, rfl, fun b hb hPb => ?_, hback⟩
  rcases List.mem_cons.mp hb with rfl | hb
  · exact ha hPb
  · exact hfront b hb hPb

/-- a second operation that is not better than the first one changes nothing -/
theorem insert_second (h : FirstLeast P (a :: ops) op) (hb : P b → P a ∧ a.rank ≤ b.rank) :
    FirstLeast P (a :: b :: ops) op := by
  obtain ⟨hP, front, back, heq, hfront, hback⟩ := h
  cases front with
  | nil =>
    obtain ⟨rfl, rfl⟩ := List.cons.inj heq
    refine ⟨hP, [], b :: ops, rfl, nofun, fun c hc hPc => ?_⟩
    rcases List.mem_cons.mp hc with rfl | hc
    · exact (hb hPc).2
    · exact hback c hc hPc
  | cons c front =>
    obtain ⟨rfl, rfl⟩ := List.cons.inj heq
    refine ⟨hP, a :: b :: front, back, rfl, fun d hd hPd => ?_, hback⟩
    rcases List.mem_cons.mp hd with rfl | hd
    · exact hfront d List.mem_cons_self hPd
    · rcases List.mem_cons.mp hd with rfl | hd
      · exact (hfront a List.mem_cons_self (hb hPd).1).trans_le (hb hPd).2
      · exact hfront d (List.mem_cons_of_mem _ hd) hPd

end FirstLeast

/-- the best operation so far, at the end of the list -/
theorem firstLeast_foldl (ops : List (Operation K)) (op : Operation K) :
    FirstLeast (fun _ => True) (op :: ops)
      (ops.foldl (fun best op => if op.precedes best then op else best) op) := by
  induction ops generalizing op with
  | nil => exact ⟨trivial, [], [], rfl, nofun, nofun⟩
  | cons a ops ih =>
    rw [List.foldl_cons]
    split
    · rename_i hlt
      have hlt := Operation.precedes_iff.mp hlt
      exact (ih a).cons_of_not fun _ =>
        ((ih a).rank_le List.mem_cons_self trivial).trans_lt hlt
    · rename_i hnot
      have hle := not_lt.mp fun hlt => hnot (Operation.precedes_iff.mpr hlt)
      exact (ih op).insert_second fun _ => ⟨trivial, hle⟩

/-- a selection from a part of the list is a selection from the list -/
theorem firstLeast_filter {P : Operation K → Prop} {p : Operation K → Bool}
    (hp : ∀ op, p op = true ↔ P op) {ops : List (Operation K)} {op : Operation K}
    (h : FirstLeast (fun _ => True) (ops.filter p) op) : FirstLeast P ops op := by
  obtain ⟨-, front, back, heq, hfront, hback⟩ := h
  obtain ⟨l, m, rfl, hl, hm⟩ := List.filter_eq_append_iff.mp heq
  obtain ⟨n, k, rfl, hn, hop, hk⟩ := List.filter_eq_cons_iff.mp hm
  refine ⟨(hp op).mp hop, l ++ n, k, by simp, fun a ha hP => ?_, fun a ha hP => ?_⟩
  · rcases List.mem_append.mp ha with ha | ha
    · exact hfront a (hl ▸ List.mem_filter.mpr ⟨ha, (hp a).mpr hP⟩) trivial
    · exact absurd ((hp a).mpr hP) (hn a ha)
  · exact hback a (hk ▸ List.mem_filter.mpr ⟨ha, (hp a).mpr hP⟩) trivial

/-- **The choice finds the first of the cheapest.** -/
theorem cheapest?_filter_eq_some {P : Operation K → Prop} {p : Operation K → Bool}
    (hp : ∀ op, p op = true ↔ P op) {ops : List (Operation K)} {op : Operation K}
    (h : cheapest? (ops.filter p) = some op) : FirstLeast P ops op := by
  refine firstLeast_filter hp ?_
  cases hops : ops.filter p with
  | nil =>
    rw [hops] at h
    cases h
  | cons a as =>
    rw [hops] at h
    cases h
    exact firstLeast_foldl as a

theorem cheapest?_filter_eq_none {P : Operation K → Prop} {p : Operation K → Bool}
    (hp : ∀ op, p op = true ↔ P op) {ops : List (Operation K)}
    (h : cheapest? (ops.filter p) = none) : ∀ op ∈ ops, ¬ P op := by
  cases hops : ops.filter p with
  | nil => exact fun op hop hP => List.filter_eq_nil_iff.mp hops op hop ((hp op).mpr hP)
  | cons a as =>
    rw [hops] at h
    cases h

/-! ## the least cost -/

/-- the cost of one of the operations, and of none of them a larger one -/
def LeastCost (ops : List (Operation K)) (cost : Cost) : Prop :=
  (∃ op ∈ ops, op.cost = cost) ∧ ∀ op ∈ ops, cost.entries ≤ op.cost.entries

theorem LeastCost.unique {ops : List (Operation K)} {a b : Cost} (ha : LeastCost ops a)
    (hb : LeastCost ops b) : a = b := by
  obtain ⟨⟨op, hop, rfl⟩, hleast⟩ := ha
  obtain ⟨⟨op', hop', rfl⟩, hleast'⟩ := hb
  exact Cost.entries_injective (le_antisymm (hleast _ hop') (hleast' _ hop))

theorem foldl_min_mem (costs : List Cost) (c : Cost) : costs.foldl Cost.min c ∈ c :: costs := by
  induction costs generalizing c with
  | nil => exact List.mem_cons_self
  | cons d costs ih =>
    rcases List.mem_cons.mp (ih (Cost.min c d)) with h | h
    · rw [List.foldl_cons, h]
      unfold Cost.min
      split <;> simp
    · exact List.mem_cons_of_mem _ (List.mem_cons_of_mem _ h)

theorem entries_foldl_min_le (costs : List Cost) (c : Cost) :
    ∀ d ∈ c :: costs, (costs.foldl Cost.min c).entries ≤ d.entries := by
  induction costs generalizing c with
  | nil => exact fun d hd => (List.mem_singleton.mp hd) ▸ le_rfl
  | cons b costs ih =>
    have hmin := ih (Cost.min c b) _ List.mem_cons_self
    rw [Cost.entries_min] at hmin
    intro d hd
    rcases List.mem_cons.mp hd with rfl | hd
    · exact hmin.trans (min_le_left _ _)
    · rcases List.mem_cons.mp hd with rfl | hd
      · exact hmin.trans (min_le_right _ _)
      · exact ih _ d (List.mem_cons_of_mem _ hd)

theorem leastCost_of_least? {ops : List (Operation K)} {cost : Cost}
    (h : least? (ops.map Operation.cost) = some cost) : LeastCost ops cost := by
  cases ops with
  | nil => cases h
  | cons op ops =>
    have hcost : (ops.map Operation.cost).foldl Cost.min op.cost = cost := Option.some.inj h
    subst hcost
    refine ⟨?_, fun a ha => entries_foldl_min_le _ _ _ (List.mem_map_of_mem (f := Operation.cost) ha)⟩
    exact List.mem_map.mp (foldl_min_mem (ops.map Operation.cost) op.cost)

theorem least?_eq_none {costs : List Cost} : least? costs = none ↔ costs = [] := by
  cases costs with
  | nil => exact iff_of_true rfl rfl
  | cons c costs => exact iff_of_false nofun nofun

end Engine

/-! ## the choice -/

/-- the operation builds no table above the limit, if there is one -/
def EngineConfig.Allows (c : EngineConfig) (op : Operation K) : Prop :=
  ∀ limit, c.maxFactorSize = some limit → op.cost.entries ≤ limit.entries

theorem EngineConfig.admits_iff (c : EngineConfig) (op : Operation K) :
    c.admits op.cost = true ↔ c.Allows op := by
  unfold EngineConfig.admits EngineConfig.Allows
  cases c.maxFactorSize with
  | none => exact iff_of_true rfl nofun
  | some limit =>
    rw [Cost.le_iff]
    exact ⟨fun h l hl => Option.some.inj hl ▸ h, fun h => h limit rfl⟩

namespace Operation

/-- the candidates that ground no logical variable, in the order of the choice -/
def lifted (m : Marginal K) : List (Operation K) :=
  candidates m .globalSumOut ++ candidates m .countingConvert ++ candidates m .fullExpand

/-- the candidates that ground a logical variable -/
def groundings (m : Marginal K) : List (Operation K) := candidates m .propositionalize

/-- all candidates of a shattered marginal without aggregation parfactors -/
def choices (m : Marginal K) : List (Operation K) := lifted m ++ groundings m

end Operation

namespace Engine

open Operation (lifted groundings choices)

variable {c : EngineConfig} {m : Marginal K}

/-- the first of the cheapest lifted candidates within the limit, or, if there is none, the first of
the cheapest groundings within it -/
def Chosen (c : EngineConfig) (m : Marginal K) (op : Operation K) : Prop :=
  FirstLeast c.Allows (lifted m) op
    ∨ (∀ a ∈ lifted m, ¬ c.Allows a) ∧ FirstLeast c.Allows (groundings m) op

/-- what is said if no candidate is within the limit: the least cost of all candidates, provided that
there is a limit and a candidate -/
def Refused (c : EngineConfig) (m : Marginal K) (err : Error) : Prop :=
  (∀ a ∈ choices m, ¬ c.Allows a)
    ∧ ((∃ cost limit, c.maxFactorSize = some limit ∧ LeastCost (choices m) cost
        ∧ err = .factorTooLarge cost limit)
      ∨ (c.maxFactorSize = none ∨ choices m = []) ∧ err = .stalled)

theorem Chosen.unique {a b : Operation K} (ha : Chosen c m a) (hb : Chosen c m b) : a = b := by
  rcases ha with ha | ⟨hnone, ha⟩ <;> rcases hb with hb | ⟨hnone', hb⟩
  · exact ha.unique hb
  · exact absurd ha.holds (hnone' a ha.mem)
  · exact absurd hb.holds (hnone b hb.mem)
  · exact ha.unique hb

theorem Refused.unique {err err' : Error} (h : Refused c m err) (h' : Refused c m err') :
    err = err' := by
  have hexcludes : ∀ {cost limit}, c.maxFactorSize = some limit → LeastCost (choices m) cost →
      ¬ (c.maxFactorSize = none ∨ choices m = []) := by
    rintro cost limit hlimit ⟨⟨op, hop, -⟩, -⟩ (hnone | hempty)
    · cases hlimit.symm.trans hnone
    · rw [hempty] at hop
      cases hop
  rcases h.2 with ⟨cost, limit, hlimit, hleast, rfl⟩ | ⟨hempty, rfl⟩ <;>
    rcases h'.2 with ⟨cost', limit', hlimit', hleast', rfl⟩ | ⟨hempty', rfl⟩
  · rw [hleast.unique hleast', Option.some.inj (hlimit.symm.trans hlimit')]
  · exact absurd hempty' (hexcludes hlimit hleast)
  · exact absurd hempty (hexcludes hlimit' hleast')
  · rfl

theorem Refused.not_chosen {err : Error} {op : Operation K} (h : Refused c m err) :
    ¬ Chosen c m op := by
  rintro (hop | ⟨-, hop⟩)
  · exact h.1 op (List.mem_append_left _ hop.mem) hop.holds
  · exact h.1 op (List.mem_append_right _ hop.mem) hop.holds

/-- **The two outcomes**: a choice, or a refusal. -/
theorem chooseCandidate_cases (c : EngineConfig) (m : Marginal K) :
    (∃ op, Chosen c m op ∧ (chooseCandidate c m).outcome = .ok (some op))
      ∨ ∃ err, Refused c m err ∧ (chooseCandidate c m).outcome = .error err := by
  have hadmits : ∀ op : Operation K, c.admits op.cost = true ↔ c.Allows op := c.admits_iff
  unfold chooseCandidate
  rw [List.partition_eq_filter_filter, List.partition_eq_filter_filter,
    show Operation.sumOuts m ++ Operation.counts m ++ Operation.expands m = lifted m from rfl,
    show Operation.grounds m = groundings m from rfl]
  dsimp only
  cases hlifted : cheapest? ((lifted m).filter fun op => c.admits op.cost) with
  | some op => exact .inl ⟨op, .inl (cheapest?_filter_eq_some hadmits hlifted), rfl⟩
  | none =>
    have hnone := cheapest?_filter_eq_none hadmits hlifted
    cases hground : cheapest? ((groundings m).filter fun op => c.admits op.cost) with
    | some op => exact .inl ⟨op, .inr ⟨hnone, cheapest?_filter_eq_some hadmits hground⟩, rfl⟩
    | none =>
      have hground := cheapest?_filter_eq_none hadmits hground
      have hall : ∀ op ∈ choices m, ¬ c.Allows op := fun op hop =>
        (List.mem_append.mp hop).elim (hnone op) (hground op)
      -- every candidate has been refused, so the refused ones are all candidates
      have hrefused : ∀ ops : List (Operation K), (∀ op ∈ ops, ¬ c.Allows op) →
          ops.filter (not ∘ fun op => c.admits op.cost) = ops := fun ops hops =>
        List.filter_eq_self.mpr fun op hop =>
          Bool.not_eq_true' _ ▸ Bool.eq_false_iff.mpr fun h => hops op hop ((hadmits op).mp h)
      right
      dsimp only
      rw [hrefused _ hnone, hrefused _ hground,
        show lifted m ++ groundings m = choices m from rfl]
      cases hleast : least? ((choices m).map Operation.cost) with
      | none =>
        have hempty := List.map_eq_nil_iff.mp (least?_eq_none.mp hleast)
        exact ⟨_, ⟨hall, .inr ⟨.inr hempty, rfl⟩⟩, rfl⟩
      | some cost =>
        cases hlimit : c.maxFactorSize with
        | none => exact ⟨_, ⟨hall, .inr ⟨.inl hlimit, rfl⟩⟩, rfl⟩
        | some limit =>
          exact ⟨_, ⟨hall, .inl ⟨cost, limit, hlimit, leastCost_of_least? hleast, rfl⟩⟩, rfl⟩

/-- **The next operation** of a shattered marginal that is not done and holds no aggregation
parfactor: the first of the cheapest lifted candidates within the limit; if there is none, the first
of the cheapest groundings within it; and if there is none either, the refusal of the least cost of
all candidates, provided that there is a limit and a candidate. -/
theorem next_eq_first_least {e : Engine K} (hdone : e.isDone = false)
    (hstandard : ∀ a, .aggregation a ∉ e.marginal.distribution.toList)
    (hshattered : e.marginal.isShattered = .ok true) :
    (∀ op, e.next.1 = .ok (some op) ↔ Chosen e.config e.marginal op)
      ∧ e.next.1 ≠ .ok none
      ∧ ∀ err, e.next.1 = .error err ↔ Refused e.config e.marginal err := by
  have hconverts : Operation.converts e.marginal = [] := by
    rw [Operation.converts, List.map_eq_nil_iff, List.filterMap_eq_nil_iff]
    intro c hc
    cases c with
    | standard p => rfl
    | aggregation a => exact absurd hc (hstandard a)
  have hnext : e.next.1 = (chooseCandidate e.config e.marginal).outcome := by
    show (choose e.config e.marginal).outcome = _
    have hdone : ¬ e.marginal.isDone = true := Bool.eq_false_iff.mp hdone
    unfold choose
    rw [if_neg hdone, hconverts, hshattered]
  rw [hnext]
  rcases chooseCandidate_cases e.config e.marginal with ⟨best, hbest, heq⟩ | ⟨err, herr, heq⟩ <;>
    rw [heq]
  · refine ⟨fun op => ?_, nofun, fun err => iff_of_false nofun fun h => h.not_chosen hbest⟩
    rw [Except.ok.injEq, Option.some.injEq]
    exact ⟨fun h => h ▸ hbest, hbest.unique⟩
  · refine ⟨fun op => iff_of_false nofun herr.not_chosen, nofun, fun err' => ?_⟩
    rw [Except.error.injEq]
    exact ⟨fun h => h ▸ herr, herr.unique⟩

end Engine

/-! ## three candidates of one rank -/

open scoped ExactScalar

namespace Epidemic

/-- an epidemic and an alarm both depend on the sick -/
def tied : Marginal Nat :=
  .make [.standard ⟨∅, [.atom (sick (.var person)), .atom epidemic], ⟨#[3, 1, 1, 2]⟩⟩,
    .standard ⟨∅, [.atom (sick (.var person)), .atom alarm], ⟨#[2, 1, 1, 5]⟩⟩]
    [⟨.atom epidemic, ∅⟩]

end Epidemic

/-- the three lifted candidates cost the same, and the sum-out goes first; a limit below their cost
refuses it -/
theorem Epidemic.next_eq_first_least_tied :
    (∃ op, (Engine.start tied .standard).next.1 = .ok (some op) ∧ op.kind = .globalSumOut
        ∧ Engine.FirstLeast (EngineConfig.Allows .standard) (Operation.lifted tied) op)
      ∧ (Engine.start tied ⟨10, some (.finite 3)⟩).next.1
        = .error (.factorTooLarge (.finite 8) (.finite 3)) := by
  have hstandard : ∀ a, .aggregation a ∉ tied.distribution.toList := by
    have h : ∀ c ∈ tied.distribution.toList, c.aggregation?.isNone = true := by decide +kernel
    intro a ha
    cases h _ ha
  have hshattered : tied.isShattered = .ok true := by decide +kernel
  constructor
  · obtain ⟨hok, -, -⟩ := Engine.next_eq_first_least (e := .start tied .standard)
      (by decide +kernel) hstandard hshattered
    have hkind : (Engine.start tied .standard).next.1.toOption.join.map Operation.kind
        = some .globalSumOut := by decide +kernel
    obtain ⟨op, hop, hkind⟩ := Option.map_eq_some_iff.mp hkind
    have hnext : (Engine.start tied .standard).next.1 = .ok (some op) := by
      revert hop
      cases (Engine.start tied .standard).next.1 with
      | error err => exact nofun
      | ok o => exact fun hop => congrArg Except.ok hop
    have hchosen : Engine.Chosen _ _ op := (hok op).mp hnext
    refine ⟨op, hnext, hkind, hchosen.resolve_right fun h => ?_⟩
    have hadmits : ∃ a ∈ Operation.lifted tied, EngineConfig.standard.admits a.cost = true := by
      decide +kernel
    obtain ⟨a, ha, hadmits⟩ := hadmits
    exact h.1 a ha ((EngineConfig.admits_iff _ a).mp hadmits)
  · obtain ⟨-, -, herror⟩ := Engine.next_eq_first_least (e := .start tied ⟨10, some (.finite 3)⟩)
      (by decide +kernel) hstandard hshattered
    have hrefused : ∀ a ∈ Operation.choices tied,
        ¬ (EngineConfig.mk 10 (some (.finite 3))).admits a.cost = true := by decide +kernel
    have hcost : ∃ a ∈ Operation.choices tied, a.cost = .finite 8 := by decide +kernel
    have hle : ∀ a ∈ Operation.choices tied, (Cost.finite 8).le a.cost = true := by
      decide +kernel
    refine (herror _).mpr ⟨fun a ha h => hrefused a ha ((EngineConfig.admits_iff _ a).mpr h), .inl ?_⟩
    exact ⟨.finite 8, .finite 3, rfl, ⟨hcost, fun a ha => Cost.le_iff.mp (hle a ha)⟩, rfl⟩

end LiftedElimination
