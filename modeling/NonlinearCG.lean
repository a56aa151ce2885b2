import NonlinearCG.Main
import NonlinearCG.Evaluator
import NonlinearCG.Method
import NonlinearCG.Options.Convert
import NonlinearCG.Proofs.LineSearch.Contract
import NonlinearCG.Proofs.Run.Breakdown
import NonlinearCG.Proofs.Run.Tally
import NonlinearCG.Proofs.Run.Termination
import NonlinearCG.Proofs.Run.Counters
import NonlinearCG.Proofs.Direction.VanishingChange
import NonlinearCG.Proofs.LineSearch.Stops
import NonlinearCG.Proofs.LineSearch.Verdicts
import NonlinearCG.Proofs.Run.TrialSteps
import NonlinearCG.Proofs.LineSearch.Nesting
import NonlinearCG.Proofs.LineSearch.Domain
import NonlinearCG.Proofs.LineSearch.Edge
import NonlinearCG.Proofs.Run.Finite
import NonlinearCG.Proofs.Run.History
import NonlinearCG.Proofs.Observer
import NonlinearCG.Proofs.Run.Endings
import NonlinearCG.Proofs.Run.Refreshing
import NonlinearCG.Proofs.Run.Schedule
import NonlinearCG.Proofs.Run.Aborts
import NonlinearCG.Proofs.Run.Loosened
import NonlinearCG.Proofs.Run.Observation
import NonlinearCG.Proofs.Run.Representation
import NonlinearCG.Proofs.Run.Scaling
import NonlinearCG.Proofs.Run.Shapes
import NonlinearCG.Proofs.LineSearch.FirstAccepted
import NonlinearCG.Proofs.CommandLine.Statuses
import NonlinearCG.Proofs.Run.PositiveSteps
import NonlinearCG.Proofs.LineSearch.LineMinimization
import NonlinearCG.Proofs.Direction.ChangeOfVariables
import NonlinearCG.Proofs.Exact.Weightings
import NonlinearCG.Proofs.LineSearch.Accounting
import NonlinearCG.Proofs.LineSearch.Bisection
import NonlinearCG.Proofs.Problem.Minimizer
import NonlinearCG.Proofs.Config.Ranges
