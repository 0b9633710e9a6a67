import LiftedElimination.Proofs.Kept
import LiftedElimination.Proofs.Selection

/-!
# The books of an engine

An engine is asked for steps again and again, also after a step has failed.  A step that is refused,
or finds nothing to do, leaves the marginal, the number of steps and the history as they were; only
the count of rejected candidates may grow.  A step that is applied runs the operation of the choice
and enters it into the history.

* `step_eq`           the three things a call can do;
* `Consistent`        the number of steps, the history and the report tell the same story, and the
                      kept random variables are those of the start;
* `Consistent.step`   a call keeps it, and `consistent_calls` any number of calls do;
* `step_books`        **what every call does, and what holds after any sequence of calls**.
-/

namespace LiftedElimination

variable {K : Type} [Scalar K]

/-! ## counters -/

/-- a counter that has not reached its end counts on -/
theorem Report.toNat_add_one {n : UInt64} (h : n.toNat + 1 < UInt64.size) :
    (n + 1).toNat = n.toNat + 1 := by
  rw [UInt64.toNat_add]
  exact Nat.mod_eq_of_lt h

/-- the counter of a cost is the cost, cut off at the largest counter -/
theorem Cost.toNat_toCounter (c : Cost) :
    (c.toCounter.toNat : WithTop Nat) = Min.min c.entries (UInt64.size - 1 : Nat) := by
  cases c with
  | infinite => exact (min_eq_right le_top).symm
  | finite n =>
    show ((if n < UInt64.size then UInt64.ofNat n else UInt64.ofNat (UInt64.size - 1)).toNat
      : WithTop Nat) = _
    by_cases h : n < UInt64.size
    · rw [if_pos h, UInt64.toNat_ofNat_of_lt' h]
      exact (min_eq_left (WithTop.coe_le_coe.mpr (Nat.le_sub_one_of_lt h))).symm
    · rw [if_neg h]
      have hle : UInt64.size - 1 ≤ n := (Nat.sub_le _ _).trans (Nat.not_lt.mp h)
      exact (min_eq_right (WithTop.coe_le_coe.mpr hle)).symm

namespace Report

theorem operations_recordRejected (r : Report) (n : Nat) (kind : OperationKind) :
    (r.recordRejected n).operations kind = r.operations kind := by
  cases kind <;> rfl

theorem steps_recordStep (r : Report) (kind : OperationKind) (eliminated cost : Cost) :
    (r.recordStep kind eliminated cost).steps = r.steps + 1 := by
  cases kind <;> rfl

/-- a step counts for the kind of its operation and for no other -/
theorem operations_recordStep (r : Report) (kind k : OperationKind) (eliminated cost : Cost) :
    (r.recordStep kind eliminated cost).operations k
      = if kind = k then r.operations k + 1 else r.operations k := by
  cases kind <;> cases k <;> rfl

theorem maxFactorSize_recordStep (r : Report) (kind : OperationKind) (eliminated cost : Cost) :
    (r.recordStep kind eliminated cost).maxFactorSize.toNat
      = max r.maxFactorSize.toNat cost.toCounter.toNat := by
  have h : (r.recordStep kind eliminated cost).maxFactorSize
      = if r.maxFactorSize < cost.toCounter then cost.toCounter else r.maxFactorSize := by
    cases kind <;> rfl
  rw [h]
  split
  · rename_i hlt
    exact (max_eq_right (UInt64.lt_iff_toNat_lt.mp hlt).le).symm
  · rename_i hle
    exact (max_eq_left (not_lt.mp fun hlt => hle (UInt64.lt_iff_toNat_lt.mpr hlt))).symm

end Report

namespace Engine

/-! ## one call -/

/-- **What a call does**: it fails or is done, or runs the operation that is chosen, within the step
limit. -/
theorem step_eq (e : Engine K) :
    (∃ err, e.step = (.error err, e.next.2)) ∨ e.step = (.ok .done, e.next.2)
      ∨ ∃ op m, e.next.1 = .ok (some op) ∧ op.run e.marginal = .ok m
        ∧ e.steps < e.config.maxSteps
        ∧ e.step = (.ok (.applied op.kind op.cost), e.next.2.applied op m) := by
  by_cases hsteps : e.steps < e.config.maxSteps
  · rcases step_cases hsteps with ⟨-, h⟩ | ⟨err, -, h⟩ | ⟨op, hop, ⟨err, -, h⟩ | ⟨m, hrun, h⟩⟩
    · exact .inr (.inl h)
    · exact .inl ⟨err, h⟩
    · exact .inl ⟨err, h⟩
    · exact .inr (.inr ⟨op, m, hop, hrun, hsteps, h⟩)
  · -- past the limit a step finds nothing to do, or fails
    have hlimit : e.next.2.config.maxSteps ≤ e.next.2.steps := Nat.not_lt.mp hsteps
    have hnext : e.next = (e.next.1, e.next.2) := rfl
    unfold step
    rw [hnext]
    match e.next.1 with
    | .error err => exact .inl ⟨err, rfl⟩
    | .ok none => exact .inr (.inl rfl)
    | .ok (some op) =>
      refine .inl ⟨.stepLimit e.next.2.config.maxSteps, ?_⟩
      dsimp only
      rw [perform, if_pos hlimit]

/-- two engines on the same marginal that have taken the same steps -/
def Agrees (e f : Engine K) : Prop :=
  e.marginal = f.marginal ∧ e.steps = f.steps ∧ e.history = f.history

theorem agrees_next (e : Engine K) : e.next.2.Agrees e := ⟨rfl, rfl, rfl⟩

/-! ## any number of calls -/

/-- the engine after so many calls, whatever they say -/
def calls (e : Engine K) : Nat → Engine K
  | 0 => e
  | n + 1 => (e.calls n).step.2

/-- the largest cost of a history -/
def largest (history : List (OperationKind × Cost)) : WithTop Nat :=
  (history.map fun s => s.2.entries).foldr max 0

theorem largest_append (history : List (OperationKind × Cost)) (kind : OperationKind) (cost : Cost) :
    largest (history ++ [(kind, cost)]) = max (largest history) cost.entries := by
  induction history with
  | nil => exact max_comm _ _
  | cons s history ih =>
    show max s.2.entries (largest (history ++ [(kind, cost)])) = _
    rw [ih, ← max_assoc]
    rfl

/-- the books of an engine that was started on `m` -/
structure Consistent (m : Marginal K) (c : EngineConfig) (e : Engine K) : Prop where
  config : e.config = c
  kept : e.marginal.kept = m.kept
  steps : e.steps = e.history.length
  limit : e.history.length ≤ c.maxSteps
  reported : e.report.steps.toNat = e.steps
  operations : ∀ kind, (e.report.operations kind).toNat = (e.history.map Prod.fst).count kind
  maxFactorSize : (e.report.maxFactorSize.toNat : WithTop Nat)
    = min (largest e.history) (UInt64.size - 1 : Nat)

namespace Consistent

variable {m : Marginal K} {c : EngineConfig} {e : Engine K}

theorem start (m : Marginal K) (c : EngineConfig) : Consistent m c (start m c) where
  config := rfl
  kept := rfl
  steps := rfl
  limit := Nat.zero_le _
  reported := rfl
  operations kind := by cases kind <;> rfl
  maxFactorSize := (min_eq_left bot_le).symm

/-- the choice of an operation changes no book but the count of the rejected -/
theorem next (h : Consistent m c e) : Consistent m c e.next.2 where
  config := h.config
  kept := h.kept
  steps := h.steps
  limit := h.limit
  reported := h.reported
  operations kind := (congrArg _ (Report.operations_recordRejected ..)).trans (h.operations kind)
  maxFactorSize := h.maxFactorSize

/-- an operation is entered into all books -/
theorem applied (hc : c.maxSteps < UInt64.size) (h : Consistent m c e)
    (hsteps : e.steps < e.config.maxSteps) {op : Operation K} {m' : Marginal K}
    (hrun : op.run e.marginal = .ok m') : Consistent m c (e.applied op m') := by
  have hlength : e.history.length + 1 < UInt64.size := by
    rw [h.config, h.steps] at hsteps
    omega
  refine ⟨h.config, ?_, ?_, ?_, ?_, fun kind => ?_, ?_⟩
  · exact (Operation.kept_run hrun).trans h.kept
  · show e.steps + 1 = (e.history ++ [_]).length
    rw [h.steps, List.length_append, List.length_singleton]
  · rw [h.config, h.steps] at hsteps
    exact List.length_append.trans_le hsteps
  · show (e.report.recordStep _ _ _).steps.toNat = _
    rw [Report.steps_recordStep, Report.toNat_add_one, h.reported]
    · rfl
    · rwa [h.reported, h.steps]
  · show ((e.report.recordStep op.kind _ _).operations kind).toNat
      = ((e.history ++ [(op.kind, op.cost)]).map Prod.fst).count kind
    -- a counter cannot run over, because it counts some of the steps
    have hcount : (e.report.operations kind).toNat + 1 < UInt64.size := by
      rw [h.operations kind]
      have := List.count_le_length (a := kind) (l := e.history.map Prod.fst)
      rw [List.length_map] at this
      omega
    rw [Report.operations_recordStep, List.map_append, List.count_append, ← h.operations kind,
      List.map_singleton, List.count_singleton]
    by_cases hkind : op.kind = kind
    · rw [if_pos hkind, if_pos (beq_iff_eq.mpr hkind), Report.toNat_add_one hcount]
    · rw [if_neg hkind, if_neg (mt beq_iff_eq.mp hkind), Nat.add_zero]
  · show ((e.report.recordStep _ _ _).maxFactorSize.toNat : WithTop Nat)
      = min (largest (e.history ++ [(op.kind, op.cost)])) _
    rw [Report.maxFactorSize_recordStep, Nat.mono_cast.map_max, h.maxFactorSize, Cost.toNat_toCounter,
      largest_append, min_max_distrib_right]

/-- **A call keeps the books**, whether it fails or not. -/
theorem step (hc : c.maxSteps < UInt64.size) (h : Consistent m c e) :
    Consistent m c e.step.2 := by
  rcases step_eq e with ⟨err, heq⟩ | heq | ⟨op, m', -, hrun, hsteps, heq⟩ <;> rw [heq]
  · exact h.next
  · exact h.next
  · exact h.next.applied hc hsteps hrun

end Consistent

theorem consistent_calls {c : EngineConfig} (hc : c.maxSteps < UInt64.size) (m : Marginal K) (n : Nat) :
    Consistent m c ((start m c).calls n) := by
  induction n with
  | zero => exact Consistent.start m c
  | succ n ih => exact ih.step hc

/-- **The books of an engine.**  A call that fails or is done changes neither the marginal nor the
number of steps nor the history; a call that applies an operation turns the marginal into the result
of that operation, counts one step and appends the operation to the history.  After any calls the
books are consistent. -/
theorem step_books :
    (∀ (e f : Engine K) err, e.step = (.error err, f) → f.Agrees e)
      ∧ (∀ e f : Engine K, e.step = (.ok .done, f) → f.Agrees e)
      ∧ (∀ (e f : Engine K) kind cost, e.step = (.ok (.applied kind cost), f) →
        ∃ op, e.next.1 = .ok (some op) ∧ op.kind = kind ∧ op.cost = cost
          ∧ op.run e.marginal = .ok f.marginal ∧ f.steps = e.steps + 1
          ∧ f.history = e.history ++ [(kind, cost)])
      ∧ ∀ (m : Marginal K) c, c.maxSteps < UInt64.size →
        ∀ n, Consistent m c ((start m c).calls n) := by
  refine ⟨fun e f err h => ?_, fun e f h => ?_, fun e f kind cost h => ?_,
    fun m c hc n => consistent_calls hc m n⟩
  all_goals
    rcases step_eq e with ⟨err', heq⟩ | heq | ⟨op, m', hop, hrun, -, heq⟩ <;> cases heq.symm.trans h
  · exact agrees_next e
  · exact agrees_next e
  · exact ⟨op, hop, rfl, rfl, hrun, rfl, rfl⟩

end Engine

/-! ## calls past the limit -/

open scoped ExactScalar

/-- three calls convert, shatter and sum out, the fourth one is one too many, and so is the fifth -/
theorem Epidemic.step_books_counted :
    (EngineConfig.mk 3 none).maxSteps < UInt64.size
      ∧ ((Engine.start counted ⟨3, none⟩).calls 3).step.1 = .error (.stepLimit 3)
      ∧ ((Engine.start counted ⟨3, none⟩).calls 4).Agrees ((Engine.start counted ⟨3, none⟩).calls 3)
      ∧ (∃ op, ((Engine.start counted ⟨3, none⟩).calls 2).next.1 = .ok (some op)
        ∧ op.run ((Engine.start counted ⟨3, none⟩).calls 2).marginal
          = .ok ((Engine.start counted ⟨3, none⟩).calls 3).marginal
        ∧ op.kind = .globalSumOut)
      ∧ Engine.Consistent counted ⟨3, none⟩ ((Engine.start counted ⟨3, none⟩).calls 5)
      ∧ ((Engine.start counted ⟨3, none⟩).calls 5).history.length = 3 := by
  obtain ⟨herror, -, happlied, hconsistent⟩ := Engine.step_books (K := Nat)
  have hlimit : (EngineConfig.mk 3 none).maxSteps < UInt64.size := by decide
  have hfails : ((Engine.start counted ⟨3, none⟩).calls 3).step.1 = .error (.stepLimit 3) := by
    decide +kernel
  have hkind : ((Engine.start counted ⟨3, none⟩).calls 2).step.1
      = .ok (.applied .globalSumOut (.finite 12)) := by decide +kernel
  obtain ⟨op, hop, hkind, -, hrun, -, -⟩ := happlied _ _ _ _ (Prod.ext hkind rfl)
  exact ⟨hlimit, hfails, herror _ _ _ (Prod.ext hfails rfl), ⟨op, hop, hrun, hkind⟩,
    hconsistent counted ⟨3, none⟩ hlimit 5, by decide +kernel⟩

end LiftedElimination
