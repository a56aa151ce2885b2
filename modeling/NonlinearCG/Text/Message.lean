import NonlinearCG.LineSearch.Strategy
import NonlinearCG.Numeral
import NonlinearCG.Options
import NonlinearCG.Preconditioner
import NonlinearCG.Results
import NonlinearCG.Scalar.Double

/-!
# Messages

The wording of errors, of refused parameters and of the events that a run reports.
-/

namespace NonlinearCG

open Text

/-! ## Refused parameters -/

def HagerZhang.Defect.message (p : HagerZhang Numeral) : HagerZhang.Defect → String
  | delta => "delta must be in (0, 0.5), got " ++ p.delta.text
  | sigma => "sigma must be in [delta, 1), got " ++ p.sigma.text
  | alphamax => "alphamax must be positive, got " ++ p.alphamax.text
  | rho => "rho must be greater than 1, got " ++ p.rho.text
  | epsilon => "epsilon must be non-negative, got " ++ p.epsilon.text
  | gamma => "gamma must be in (0, 1), got " ++ p.gamma.text
  | linesearchmax => s!"linesearchmax must be positive, got {p.linesearchmax}"
  | psi3 => "psi3 must be in (0, 1), got " ++ p.psi3.text

def Backtracking.Defect.message (p : Backtracking Numeral) : Backtracking.Defect → String
  | c1 => "c1 must be in (0, 1), got " ++ p.c1.text
  | ratios => s!"Need 0 < rholo <= rhohi < 1, got rholo={p.rholo.text}, rhohi={p.rhohi.text}"
  | iterations => s!"iterations must be positive, got {p.iterations}"

/-- The message about the first parameter of a line search outside its range, if there is one. -/
def Strategy.refusal? : Strategy Numeral → Option String
  | hagerZhang p => (p.map Numeral.toFloat).defect?.map (·.message p)
  | backtracking p => (p.map Numeral.toFloat).defect?.map (·.message p)

def Options.Defect.message (o : Options Numeral Numeral) : Options.Defect → String
  | xtol => "xtol must be non-negative, got " ++ o.xtol.text
  | ftol => "ftol must be non-negative, got " ++ o.ftol.text
  | grtol => "grtol must be non-negative, got " ++ o.grtol.text
  | iterations => "iterations must be positive, got " ++ o.iterations.text
  | eta => "eta must be positive, got " ++ o.eta.text

/-- The message about data that define no preconditioner, of the given kind. A matrix that is not
positive definite is refused without one. -/
def PreconditionerError.message (kind : String) : PreconditionerError → Option String
  | notOneDimensional shape => some ("p must be one-dimensional, got shape " ++ shape.text)
  | notSquare shape => some ("M must be a square matrix, got shape " ++ shape.text)
  | notSymmetric => some "M must be symmetric"
  | notPositiveDefinite => none
  | unsupported => some
    (s!"Unsupported preconditioner of type {kind}; " ++
      "expected None, a Preconditioner, a 1-D or a 2-D array")

/-! ## Names -/

def HagerZhang.name (p : HagerZhang Numeral) : String :=
  s!"HagerZhang(delta={p.delta.text}, sigma={p.sigma.text})"

def Backtracking.name (p : Backtracking Numeral) : String := s!"Backtracking(c1={p.c1.text})"

def Strategy.name : Strategy Numeral → String
  | hagerZhang p => p.name
  | backtracking p => p.name

def Options.minimizerName (o : Options Numeral Numeral) (lineSearch preconditioner : String) :
    String :=
  s!"ConjugateGradient(eta={o.eta.text}, iterations={o.iterations.text}, " ++
    s!"linesearch={lineSearch}, P={preconditioner})"

/-! ## Errors and events of a run -/

def SearchError.message : SearchError Float → String
  | startNotFinite => "Initial value and slope must be finite"
  | stepNotAdmissible c => "Initial step must be finite and in (0, alphamax], got " ++ plain c
  | stepNotPositive c => "Initial step must be finite and positive, got " ++ plain c
  | notDescent a b =>
    "Search direction is not a direction of descent; this may indicate that user-provided " ++
      s!"derivatives are inaccurate (dphia = {general a}; dphib = {general b})"
  | secantNotFinite c => "Non-finite evaluation at secant step " ++ plain c
  | bisectionNotFinite c => "Non-finite evaluation while bisecting at alpha = " ++ plain c
  | tooManyReductions => "Too many iterations in backtracking line search"
  | notConverged => "Linesearch failed to converge, reached maximum iterations."
  | stated message => message

def ErrorClass.name : ErrorClass → String
  | optimization => "OptimizationError"
  | nonFiniteValue => "NonFiniteValueError"
  | lineSearch => "LineSearchError"

def ErrorCause.message : ErrorCause Float → String
  | startValue v => "Must have finite starting value, got " ++ plain v
  | startGradient positions =>
    "Gradient must have all finite values at starting point; non-finite components: [" ++
      ", ".intercalate (positions.map toString) ++ "]"
  | stepValue v k => s!"Objective must return finite values, got {plain v} at iteration {k}"
  | search e => e.message
  | stated _ message => message

def Severity.name : Severity → String
  | debug => "DEBUG"
  | info => "INFO"
  | warning => "WARNING"

def Event.text : Event Float → String
  | noFiniteTrial => "Failed to achieve finite new evaluation point, using alpha=0"
  | trialAccepted c => "Wolfe condition satisfied on point alpha = " ++ general c
  | expansionExhausted c limit v d =>
    "Failed to expand interval to bracket with finite values " ++
      s!"(c = {general c}, alphamax = {general limit}, phic = {general v}, dphic = {general d})"
  | restarting d => s!"Direction is not a descent direction (dphi0 = {general d}), restarting"
  | stopping k d => s!"No descent direction at iteration {k} (dphi0 = {general d}), stopping"

end NonlinearCG
