import LiftedElimination.Engine
import LiftedElimination.Decimal.Read
import LiftedElimination.Json.Model
import LiftedElimination.Proofs.Refinement
import LiftedElimination.Proofs.Elimination
import LiftedElimination.Proofs.Comparison
import LiftedElimination.Proofs.Bulk
import LiftedElimination.Proofs.Settling
import LiftedElimination.Proofs.Termination
import LiftedElimination.Proofs.Descent
import LiftedElimination.Proofs.Halting
import LiftedElimination.Proofs.Guarded
import LiftedElimination.Proofs.Operations
import LiftedElimination.Proofs.Checked
import LiftedElimination.Proofs.Containment
import LiftedElimination.Proofs.Idempotence
import LiftedElimination.Proofs.Kept
import LiftedElimination.Proofs.Spacing
import LiftedElimination.Proofs.TableSize
import LiftedElimination.Proofs.Failures
import LiftedElimination.Proofs.Progress
import LiftedElimination.Proofs.Confluence
import LiftedElimination.Proofs.Counting
import LiftedElimination.Proofs.Nobody
import LiftedElimination.Proofs.Countable
import LiftedElimination.Proofs.Expandable
import LiftedElimination.Proofs.Marginalization
import LiftedElimination.Proofs.Conversion
import LiftedElimination.Proofs.Structural
import LiftedElimination.Proofs.Joint
import LiftedElimination.Proofs.Answer
import LiftedElimination.Proofs.FactorLimit
import LiftedElimination.Proofs.History
import LiftedElimination.Proofs.RoundTrip
import LiftedElimination.Proofs.Fitting
import LiftedElimination.Proofs.Regularity
import LiftedElimination.Proofs.Normalization
import LiftedElimination.Proofs.Partition
import LiftedElimination.Proofs.Multiplication
import LiftedElimination.Proofs.MostGeneral
import LiftedElimination.Proofs.Enumeration
import LiftedElimination.Proofs.BoundName
import LiftedElimination.Proofs.Groundings
import LiftedElimination.Proofs.Eliminated
import LiftedElimination.Proofs.Plain
import LiftedElimination.Proofs.Distinct
import LiftedElimination.Proofs.Estimates
import LiftedElimination.Proofs.ExactCost
import LiftedElimination.Proofs.HistogramRange
import LiftedElimination.Proofs.Canonical
import LiftedElimination.Proofs.Rewriting
import LiftedElimination.Proofs.RowMajor
import LiftedElimination.Proofs.Multinomial
