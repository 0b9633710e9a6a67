import LiftedElimination.Proofs.Enumeration
import LiftedElimination.Proofs.History
import LiftedElimination.Proofs.Idempotence
import LiftedElimination.Proofs.Inherited

/-!
# The count of eliminated random variables

Every elimination that is applied adds the number of ground random variables of its set to a counter
of 64 bits.  A single number is cut off at the largest counter, but the sum is not: it starts again
from zero behind the largest counter.

* `PrvSet.size`            the number of ground random variables of a set;
* `toNat_groundCount`      the count of a set is its size, cut off at the largest counter;
* `eliminations`           the sets that the calls of an engine eliminate, in turn;
* `eliminated_calls`       the counter is the sum of what they add, up to multiples of its size;
* `eliminated_total`       **a sum that fits is the number of random variables eliminated**, cut off
                           at the largest counter, and it never falls.
-/

namespace LiftedElimination

open Finset

variable {K : Type}

/-! ## the size of a set -/

namespace PrvSet

variable {s : PrvSet}

/-- the number of ground random variables of the set -/
noncomputable def size (s : PrvSet) : Nat := s.instances.ncard

/-- a ground atom of the set belongs to one grounding of its variables -/
theorem size_eq_card (s : PrvSet) :
    s.size = ((s.prv.constraintsIn s.constraints).solutions s.prv.base.variables).card := by
  classical
  have himage : s.instances = ↑(((s.prv.constraintsIn s.constraints).solutions
      s.prv.base.variables).image s.prv.base.ground) := by
    ext g
    rw [coe_image]
    constructor
    · rintro ⟨γ, hγ, rfl⟩
      refine ⟨_, mem_coe.mpr (ConstraintSet.restrict_mem_solutions hγ), ?_⟩
      exact Atom.ground_congr fun x hx => Valuation.restrict_of_mem hx
    · rintro ⟨γ, hγ, rfl⟩
      exact ⟨γ, ConstraintSet.solves_of_mem (mem_coe.mp hγ), rfl⟩
  rw [size, himage, Set.ncard_coe_finset, card_image_of_injOn]
  intro γ hγ δ hδ hground
  exact ConstraintSet.eq_of_mem_solutions hγ hδ fun x hx => Atom.eq_of_ground_eq hground hx

/-- there is no `X ≠ X` on the variables of the atom, which the counting would ignore -/
def Irreflexive (s : PrvSet) : Prop :=
  ∀ c ∈ s.prv.constraintsIn s.constraints, (∀ x ∈ c.variables, x ∈ s.prv.base.variables) →
    c.isContradiction = false

theorem size_eq_length (hs : s.Irreflexive) : s.size
    = ((s.prv.constraintsIn s.constraints).groundings s.prv.base.variables).length := by
  rw [size_eq_card, ConstraintSet.card_solutions hs (Atom.nodup_variables _),
    ConstraintSet.length_groundings]

theorem groundCount_eq (s : PrvSet) : s.groundCount
    = (s.prv.constraintsIn s.constraints).countGroundings s.prv.base.variables := by
  unfold groundCount
  cases s.prv <;> rfl

/-- what the elimination of the set adds to a counter: its size, or the largest counter -/
noncomputable def added (s : PrvSet) : Nat := min s.size (UInt64.size - 1)

/-- **The count of a set** is its size, cut off at the largest counter. -/
theorem toNat_groundCount (hordered : (s.prv.constraintsIn s.constraints).IsOrdered)
    (hs : s.Irreflexive) : s.groundCount.toCounter.toNat = s.added := by
  obtain ⟨-, hexact, hover⟩ :=
    ConstraintSet.countGroundings_exact hordered (Atom.nodup_variables s.prv.base)
  rw [← size_eq_length hs, ← groundCount_eq] at hexact hover
  have hcounter := Cost.toNat_toCounter s.groundCount
  have hlimit : UInt64.size - 1 ≤ Cost.limit := by decide
  rcases le_or_gt s.size Cost.limit with hle | hlt
  · rw [hexact hle] at hcounter ⊢
    refine WithTop.coe_injective (hcounter.trans ?_)
    exact (Nat.mono_cast.map_min (a := s.size) (b := UInt64.size - 1)).symm
  · have hadded : s.added = UInt64.size - 1 := min_eq_right (hlimit.trans hlt.le)
    rw [hadded]
    rcases hover hlt with hcount | hcount <;> rw [hcount]
    · rfl
    · rfl

end PrvSet

/-! ## what a call adds -/

theorem Report.eliminated_recordStep (r : Report) (kind : OperationKind) (eliminated cost : Cost) :
    (r.recordStep kind eliminated cost).eliminated = r.eliminated + eliminated.toCounter := by
  cases kind <;> rfl

section
variable [Scalar K] {m : Marginal K} {e : Engine K}

/-- the set of an elimination overlaps a random variable, which rules an `X ≠ X` out -/
theorem Operation.irreflexive_of_sumOut? {s : PrvSet} {e : SetElimination K}
    (h : sumOut? m s = some e) : s.Irreflexive := by
  intro c hc hin
  obtain ⟨y, hy⟩ := List.exists_mem_of_ne_nil _ (aligned_ne_nil h)
  obtain ⟨pairs, hpairs, -, rfl⟩ := sumOut?_ok h
  obtain ⟨x, hx, rfl⟩ := List.mem_map.mp hy
  obtain ⟨p, k, -, -, -, halign⟩ := (alignAll?_ok hpairs).2 x hx
  obtain ⟨q, rho, renamed, -, -, hrho, -⟩ := alignAt?_ok halign
  obtain ⟨o, hoverlap⟩ := Extent.exists_overlap_of_renaming? hrho
  have hkept := (Extent.overlaps_of_overlap? hoverlap).kept c (.inl ?_)
  · refine Bool.eq_false_of_not_eq_true fun hcon => ?_
    rw [Constraint.isContradiction_iff] at hcon
    rw [Constraint.isViolatedBy, hcon, beq_self_eq_true] at hkept
    cases hkept
  · rw [Extent.ofSet, Extent.of_constraints]
    exact ConstraintSet.mem_restrictTo.mpr ⟨hc, hin⟩

/-- the set that an operation eliminates -/
def Operation.eliminated? : Operation K → Option PrvSet
  | sumOut e => some e.eliminated
  | _ => none

/-- what an eligible operation enters into the report is what its set adds -/
theorem Operation.toNat_eliminatedCount (hm : m.IsOrdered) {op : Operation K} (h : op.Eligible m) :
    op.eliminatedCount.toCounter.toNat = (op.eliminated?.toList.map PrvSet.added).sum := by
  cases op with
  | sumOut e =>
    obtain ⟨-, p, hp, q, hq, -, hsum⟩ := h
    obtain ⟨pairs, -, -, heq⟩ := sumOut?_ok hsum
    have hset : e.eliminated = .of q p.constraints := congrArg SetElimination.eliminated heq
    have hordered := hm _ hp
    have hin : (e.eliminated.prv.constraintsIn e.eliminated.constraints).IsOrdered := by
      rw [hset]
      exact Prv.isOrdered_constraintsIn
        (fun c hc => hordered.constraints c (ConstraintSet.mem_restrictTo.mp hc).1)
        (hordered.prvs q hq)
    show e.eliminated.groundCount.toCounter.toNat = [e.eliminated.added].sum
    rw [PrvSet.toNat_groundCount hin (hset ▸ irreflexive_of_sumOut? hsum), List.sum_singleton]
  | convert _ | shatter | count _ _ | expand _ _ | ground _ _ => rfl

namespace Engine

/-- the set that a call eliminates, if it applies an elimination -/
def eliminated? (e : Engine K) : Option PrvSet :=
  match e.step.1 with
  | .ok (.applied _ _) => e.next.1.toOption.join.bind Operation.eliminated?
  | _ => none

/-- the sets that so many calls eliminate, in turn -/
def eliminations (e : Engine K) : Nat → List PrvSet
  | 0 => []
  | n + 1 => e.eliminations n ++ (e.calls n).eliminated?.toList

/-- **What a call adds** to the counter, which starts again behind its end. -/
theorem eliminated_step (hm : e.marginal.IsOrdered) : e.step.2.report.eliminated.toNat
    = (e.report.eliminated.toNat + (e.eliminated?.toList.map PrvSet.added).sum) % UInt64.size := by
  have hnone : e.report.eliminated.toNat
      = (e.report.eliminated.toNat + (([] : List PrvSet).map PrvSet.added).sum) % UInt64.size :=
    (Nat.mod_eq_of_lt e.report.eliminated.toNat_lt).symm
  unfold eliminated?
  rcases step_eq e with ⟨err, heq⟩ | heq | ⟨op, m', hop, -, -, heq⟩ <;> rw [heq]
  · exact hnone
  · exact hnone
  · have hadded : (e.next.2.applied op m').report.eliminated
        = e.report.eliminated + op.eliminatedCount.toCounter := Report.eliminated_recordStep ..
    rw [hop]
    show (e.next.2.applied op m').report.eliminated.toNat
      = (_ + (op.eliminated?.toList.map PrvSet.added).sum) % _
    rw [hadded, UInt64.toNat_add, Operation.toNat_eliminatedCount hm (eligible_of_choose hop)]

/-- the inequalities stay in their canonical form, whatever a call does -/
theorem isOrdered_step (hm : e.marginal.IsOrdered) : e.step.2.marginal.IsOrdered := by
  rcases step_eq e with ⟨err, heq⟩ | heq | ⟨op, m', hop, hrun, -, heq⟩ <;> rw [heq]
  · exact hm
  · exact hm
  · exact hereditary_isOrdered.run hm (eligible_of_choose hop) hrun

theorem isOrdered_calls (hm : e.marginal.IsOrdered) (n : Nat) : (e.calls n).marginal.IsOrdered := by
  induction n with
  | zero => exact hm
  | succ n ih => exact isOrdered_step ih

/-- **The counter** is the sum of what the calls add, up to multiples of its size. -/
theorem eliminated_calls (hm : m.IsOrdered) (c : EngineConfig) (n : Nat) :
    ((start m c).calls n).report.eliminated.toNat
      = (((start m c).eliminations n).map PrvSet.added).sum % UInt64.size := by
  induction n with
  | zero => rfl
  | succ n ih =>
    rw [calls, eliminated_step (isOrdered_calls hm n), ih, eliminations, List.map_append,
      List.sum_append, Nat.mod_add_mod]

/-- the sum of what is added is cut off where the sum of the sizes is -/
theorem min_sum_added (l : List PrvSet) :
    min (l.map PrvSet.added).sum (UInt64.size - 1) = min (l.map PrvSet.size).sum (UInt64.size - 1) := by
  induction l with
  | nil => rfl
  | cons s l ih =>
    have hadded : s.added = min s.size (UInt64.size - 1) := rfl
    rw [List.map_cons, List.map_cons, List.sum_cons, List.sum_cons]
    omega

theorem sum_added_mono (e : Engine K) {i j : Nat} (h : i ≤ j) :
    ((e.eliminations i).map PrvSet.added).sum ≤ ((e.eliminations j).map PrvSet.added).sum := by
  induction j, h using Nat.le_induction with
  | base => exact le_rfl
  | succ j _ ih =>
    rw [eliminations, List.map_append, List.sum_append]
    exact ih.trans (Nat.le_add_right _ _)

/-- **The count of eliminated random variables.**  After any number of calls the counter is the sum
of the numbers of ground random variables of the sets eliminated, each cut off at the largest counter,
up to multiples of 2^64.  As long as this sum fits into the counter, it is the number of all random
variables eliminated, cut off at the largest counter, and it has not fallen from any call to a later
one. -/
theorem eliminated_total (hm : m.IsOrdered) (c : EngineConfig) (n : Nat) :
    ((start m c).calls n).report.eliminated.toNat
        = (((start m c).eliminations n).map PrvSet.added).sum % UInt64.size
      ∧ ((((start m c).eliminations n).map PrvSet.added).sum < UInt64.size →
        ((start m c).calls n).report.eliminated.toNat
            = min (((start m c).eliminations n).map PrvSet.size).sum (UInt64.size - 1)
          ∧ ∀ i j, i ≤ j → j ≤ n → ((start m c).calls i).report.eliminated
            ≤ ((start m c).calls j).report.eliminated) := by
  refine ⟨eliminated_calls hm c n, fun hfits => ⟨?_, fun i j hij hjn => ?_⟩⟩
  · rw [eliminated_calls hm, Nat.mod_eq_of_lt hfits, ← min_sum_added,
      min_eq_left (Nat.le_sub_one_of_lt hfits)]
  · have hj := (sum_added_mono (start m c) hjn).trans_lt hfits
    have hi := (sum_added_mono (start m c) hij).trans_lt hj
    rw [UInt64.le_iff_toNat_le, eliminated_calls hm, eliminated_calls hm, Nat.mod_eq_of_lt hi,
      Nat.mod_eq_of_lt hj]
    exact sum_added_mono (start m c) hij

end Engine

end

/-! ## everybody, and the alarm -/

open scoped ExactScalar

namespace Epidemic

theorem isOrdered_tied : tied.IsOrdered := by
  refine Distribution.forall_mem_ofList (P := Component.IsOrdered) (fun _ hc => hc.squared)
    fun c hc => ?_
  have hempty : ConstraintSet.IsOrdered ∅ := fun c hc => absurd hc List.not_mem_nil
  simp only [List.mem_cons, List.not_mem_nil, or_false] at hc
  rcases hc with rfl | rfl <;> refine ⟨hempty, fun q hq f hf => ?_⟩ <;> subst hf <;>
    simp [Component.prvs] at hq

/-- one call eliminates who is sick, the next one the alarm -/
theorem eliminated_total_tied : tied.IsOrdered
    ∧ (Engine.start tied .standard).eliminations 2
      = [⟨.atom (sick (.var person)), ∅⟩, ⟨.atom alarm, ∅⟩]
    ∧ ((Engine.start tied .standard).calls 1).report.eliminated
      ≤ ((Engine.start tied .standard).calls 2).report.eliminated
    ∧ ((Engine.start tied .standard).calls 2).report.eliminated.toNat = 4 := by
  have hsets : (Engine.start tied .standard).eliminations 2
      = [⟨.atom (sick (.var person)), ∅⟩, ⟨.atom alarm, ∅⟩] := by decide +kernel
  have hsick : PrvSet.size ⟨.atom (sick (.var person)), ∅⟩ = 3 := by
    rw [PrvSet.size_eq_length fun c hc => absurd hc List.not_mem_nil]
    decide
  have halarm : PrvSet.size ⟨.atom alarm, ∅⟩ = 1 := by
    rw [PrvSet.size_eq_length fun c hc => absurd hc List.not_mem_nil]
    decide
  obtain ⟨-, hfits⟩ := Engine.eliminated_total isOrdered_tied .standard 2
  simp only [hsets, List.map_cons, List.map_nil, PrvSet.added, hsick, halarm] at hfits
  obtain ⟨htotal, hmono⟩ := hfits (by decide)
  exact ⟨isOrdered_tied, hsets, hmono 1 2 (by decide) le_rfl, htotal⟩

end Epidemic

end LiftedElimination
