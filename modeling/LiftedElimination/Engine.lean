import LiftedElimination.Report

/-!
# The engine

Each step runs one operation on the marginal: the conversion of an aggregation parfactor, else
shattering, else the cheapest lifted operation within the size limit, else the cheapest grounding
within it.

* `Engine.next`   the operation of the next step, with the number of candidates rejected for size;
* `Engine.step`   runs it;
* `Engine.run`    steps until only kept random variables are left; every applied step uses one of
                  the `maxSteps`, so the run ends.
-/

namespace LiftedElimination

/-- the limits of a run; no largest table means no limit -/
structure EngineConfig where
  maxSteps : Nat
  maxFactorSize : Option Cost
deriving DecidableEq

namespace EngineConfig

def standard : EngineConfig := ⟨10000, some (.finite (Nat.pow 2 24))⟩

def admits (c : EngineConfig) (cost : Cost) : Bool :=
  match c.maxFactorSize with
  | none => true
  | some limit => cost.le limit

end EngineConfig

variable {K : Type} [Scalar K]

/-- the outcome of a step -/
inductive StepResult where
  | applied (kind : OperationKind) (cost : Cost)
  | done
deriving DecidableEq

/-- a marginal under elimination -/
structure Engine (K : Type) [Scalar K] where
  marginal : Marginal K
  config : EngineConfig
  steps : Nat
  history : List (OperationKind × Cost)
  report : Report

namespace Engine

def start (m : Marginal K) (config : EngineConfig) : Engine K := ⟨m, config, 0, [], .zero⟩

def isDone (e : Engine K) : Bool := e.marginal.isDone

/-! ## choice -/

/-- the first of the cheapest operations -/
def cheapest? : List (Operation K) → Option (Operation K)
  | [] => none
  | op :: ops => some (ops.foldl (fun best op => if op.precedes best then op else best) op)

/-- the least of the costs -/
def least? : List Cost → Option Cost
  | [] => none
  | c :: cs => some (cs.foldl Cost.min c)

/-- the choice of the next operation: its outcome, and the number of candidates that were rejected
because of their size -/
structure Choice (K : Type) [Scalar K] where
  outcome : Except Error (Option (Operation K))
  rejected : Nat

def Choice.of (outcome : Except Error (Option (Operation K))) : Choice K := ⟨outcome, 0⟩

/-- the operation of the next step among the candidates of a shattered marginal without aggregation
parfactors: the cheapest lifted one within the limit, else the cheapest grounding within it -/
def chooseCandidate (c : EngineConfig) (m : Marginal K) : Choice K :=
  let (lifted, largeLifted) :=
    (Operation.sumOuts m ++ Operation.counts m ++ Operation.expands m).partition
      (fun op => c.admits op.cost)
  match cheapest? lifted with
  | some op => ⟨.ok (some op), largeLifted.length⟩
  | none =>
    let (grounding, largeGrounding) :=
      (Operation.grounds m).partition (fun op => c.admits op.cost)
    let large := largeLifted ++ largeGrounding
    match cheapest? grounding with
    | some op => ⟨.ok (some op), large.length⟩
    | none =>
      match least? (large.map Operation.cost), c.maxFactorSize with
      | some cost, some limit => ⟨.error (.factorTooLarge cost limit), large.length⟩
      | _, _ => ⟨.error .stalled, large.length⟩

/-- the operation of the next step, nothing once only kept random variables are left -/
def choose (c : EngineConfig) (m : Marginal K) : Choice K :=
  if m.isDone then .of (.ok none)
  else
    match Operation.converts m with
    | op :: _ => .of (.ok (some op))
    | [] =>
      match m.isShattered with
      | .error e => .of (.error e)
      | .ok false => .of (.ok (some .shatter))
      | .ok true => chooseCandidate c m

/-- the operation of the next step, and the engine with the rejected candidates counted -/
def next (e : Engine K) : Except Error (Option (Operation K)) × Engine K :=
  let choice := choose e.config e.marginal
  (choice.outcome, { e with report := e.report.recordRejected choice.rejected })

/-! ## steps -/

/-- the engine after `op` has turned its marginal into `m` -/
def applied (e : Engine K) (op : Operation K) (m : Marginal K) : Engine K :=
  { e with
    marginal := m
    steps := e.steps + 1
    history := e.history ++ [(op.kind, op.cost)]
    report := e.report.recordStep op.kind op.eliminatedCount op.cost }

/-- run `op` if the step limit allows one more step -/
def perform (e : Engine K) (op : Operation K) : Except Error StepResult × Engine K :=
  if e.config.maxSteps ≤ e.steps then (.error (.stepLimit e.config.maxSteps), e)
  else
    match op.run e.marginal with
    | .error err => (.error err, e)
    | .ok m => (.ok (.applied op.kind op.cost), e.applied op m)

def step (e : Engine K) : Except Error StepResult × Engine K :=
  match e.next with
  | (.error err, e) => (.error err, e)
  | (.ok none, e) => (.ok .done, e)
  | (.ok (some op), e) => e.perform op

@[simp] theorem next_config (e : Engine K) : e.next.2.config = e.config := rfl

@[simp] theorem next_steps (e : Engine K) : e.next.2.steps = e.steps := rfl

/-- an applied step counts, and was allowed -/
theorem steps_of_perform {e f : Engine K} {op : Operation K} {kind : OperationKind} {cost : Cost}
    (h : e.perform op = (.ok (.applied kind cost), f)) :
    f.config = e.config ∧ f.steps = e.steps + 1 ∧ e.steps < e.config.maxSteps := by
  unfold perform at h
  split at h
  · cases h
  · split at h
    · cases h
    · cases h
      exact ⟨rfl, rfl, by omega⟩

theorem steps_of_step {e f : Engine K} {kind : OperationKind} {cost : Cost}
    (h : e.step = (.ok (.applied kind cost), f)) :
    f.config = e.config ∧ f.steps = e.steps + 1 ∧ e.steps < e.config.maxSteps := by
  have hc := next_config e
  have hs := next_steps e
  unfold step at h
  split at h
  · cases h
  · cases h
  · rename_i op g hn
    rw [hn] at hc hs
    obtain ⟨h₁, h₂, h₃⟩ := steps_of_perform h
    exact ⟨h₁.trans hc, h₂.trans (congrArg (· + 1) hs), by rw [hc, hs] at h₃; exact h₃⟩

/-- step until only kept random variables are left, or a step fails -/
def run (e : Engine K) : Except Error Unit × Engine K :=
  match h : e.step with
  | (.error err, f) => (.error err, f)
  | (.ok .done, f) => (.ok (), f)
  | (.ok (.applied _ _), f) =>
    have : f.config.maxSteps - f.steps < e.config.maxSteps - e.steps := by
      obtain ⟨h₁, h₂, h₃⟩ := steps_of_step h
      rw [h₁, h₂]
      omega
    f.run
termination_by e.config.maxSteps - e.steps

/-- run to the end and multiply what is left -/
def answer (e : Engine K) : Except Error (Parfactor K) × Engine K :=
  match e.run with
  | (.error err, f) => (.error err, f)
  | (.ok (), f) => (f.marginal.answer, f)

end Engine

/-- everything but the kept random variables eliminated, within the standard limits -/
def Marginal.eliminate (m : Marginal K) : Except Error (Marginal K) :=
  match (Engine.start m .standard).run with
  | (.error err, _) => .error err
  | (.ok (), e) => .ok e.marginal

/-- the potential of the kept random variables, within the standard limits -/
def Marginal.query (m : Marginal K) : Except Error (Parfactor K) :=
  (Engine.start m .standard).answer.1

end LiftedElimination
