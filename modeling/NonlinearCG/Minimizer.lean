import NonlinearCG.Direction
import NonlinearCG.LineSearch.HagerZhang
import NonlinearCG.LineSearch.TrialStep
import NonlinearCG.Options
import NonlinearCG.Results

/-!
# The conjugate gradient minimizer

A run starts along the preconditioned steepest descent direction. Each iteration

1. replaces a direction that does not lead downhill, and stops if that does not help;
2. predicts a trial step and searches along the direction;
3. moves, evaluates value and gradient again and stops the run where the value is not finite;
4. assesses convergence, refreshes the preconditioner, updates the direction and shows the new
   state to the observers.

The minimizer owns a preconditioner and observers that live from run to run; together with the world
of the objective they form a `Session`. What a run did to the session stays, however the run ends.
-/

namespace NonlinearCG

/-- What the runs of one minimizer share. -/
structure Session (ω α : Type) where
  world : ω
  preconditioner : Preconditioner α
  observers : List (Observer α) := []
  log : Array (Event α) := #[]

/-- A conjugate gradient minimizer. -/
structure Minimizer (ω α : Type) where
  options : Options α Limit
  lineSearch : LineSearch ω α
  /-- Refreshes the preconditioner at a point. -/
  refresh : Preconditioner α → Array α → Eval ω (Preconditioner α)

/-- What a run hands back: its results or its error, and the states it displayed. -/
structure Report (α : Type) where
  outcome : Except (RunError α) (Results α)
  displayed : Array (State α) := #[]

variable {ω α : Type} [Scalar α] {n : Nat}

/-- The refreshing that a preconditioner does by its own rule. -/
def ownRefresh (P : Preconditioner α) (x : Array α) : Eval ω (Preconditioner α) :=
  .ofExcept (P.refreshed x)

namespace Minimizer

/-! ## Runs -/

/-- How a run is interrupted: by a breakdown, or by an optimizer error after a number of iterations
and evaluations, at a point. -/
inductive Interrupt (α : Type) (n : Nat) where
  | breakdown (cause : Breakdown)
  | stopped (cause : ErrorCause α) (iteration : Nat) (calls : Calls) (x : Vec α n)

/-- A part of a run. What it did to the session survives an interruption. -/
abbrev Run (ω α : Type) (n : Nat) := ExceptT (Interrupt α n) (StateM (Session ω α))

/-- A result that may be missing because of a breakdown. -/
def Run.lift {A : Type} : Except Breakdown A → Run ω α n A
  | .ok a => pure a
  | .error b => throw (.breakdown b)

/-- Runs an evaluation on the world of the session. -/
def Run.evaluate {A : Type} (act : Eval ω A) : Run ω α n A := do
  let session ← get
  let (result, world) := act.run session.world
  set { session with world }
  Run.lift result

def Run.report (e : Event α) : Run ω α n Unit :=
  modify fun session ↦ { session with log := session.log.push e }

/-- A point of the run, with the direction in which it goes on. -/
structure Iterate (α : Type) (n : Nat) where
  iteration : Nat
  x : Vec α n
  value : α
  gradient : Vec α n
  direction : Vec α n
  /-- The step that led here. -/
  alpha : α
  /-- The evaluations so far. -/
  calls : Calls

/-- Runs a part of a line search from an iterate. An error of the search stops the run there, in the
iteration that follows. -/
def Run.searching {A : Type} (it : Iterate α n) (calls : Calls) (cache : Cache α)
    (act : Search (Trial ω α n) α A) : Run ω α n (A × Cache α) := do
  let session ← get
  let (result, bench) := act.run
    { world := ⟨session.world, it.x, it.gradient⟩, cache, log := session.log }
  set { session with world := bench.world.world, log := bench.log }
  match result with
  | .ok a => return (a, bench.cache)
  | .error (.breakdown b) => throw (.breakdown b)
  | .error (.search e) => throw (.stopped (.search e) (it.iteration + 1) calls it.x)

def state (o : Options α Limit) (view : Vec α n → Tensor α) (it : Iterate α n) : State α where
  iteration := it.iteration
  value := it.value
  gradnorm := Vec.infNorm it.gradient
  metadata :=
    if o.extendedTrace then
      [("x", .array (view it.x)), ("g(x)", .array (view it.gradient)),
        ("Current step size", .number it.alpha)]
    else []

/-- Shows an iterate to the observers, if one of them is due. -/
def notify (m : Minimizer ω α) (view : Vec α n → Tensor α) (it : Iterate α n) :
    Run ω α n Unit :=
  modify fun session ↦
    if session.observers.any (Observer.dueAt it.iteration) then
      { session with
        observers := Observer.observeDue (state m.options view it) session.observers }
    else session

/-- Refreshes the preconditioner at a point and fits it to the number of variables. -/
def prepare (m : Minimizer ω α) (x : Vec α n) : Run ω α n (Operator α n) := do
  let P ← Run.evaluate (m.refresh (← get).preconditioner x.toArray)
  modify fun session ↦ { session with preconditioner := P }
  Run.lift (P.weighting.sized n)

/-! ## One iteration -/

inductive Advance (α : Type) (n : Nat) where
  /-- No direction leads downhill. -/
  | stuck
  /-- A new iterate, with the verdict on it. -/
  | moved (it : Iterate α n) (verdict : Verdict)

/-- A trial step along a direction, with the cache and the evaluations up to it. -/
structure Prediction (α : Type) where
  trial : α
  /-- The trial step minimizes a quadratic fit. -/
  mayAccept : Bool
  cache : Cache α
  calls : Calls

/-- Predicts a step along a direction from the step that led to an iterate. -/
def predict (f : Objective ω α n) (it : Iterate α n) (s : Vec α n) (slope : α) :
    Run ω α n (Prediction α) := do
  let (((trial, mayAccept), calls), cache) ← Run.searching it it.calls
    (.seeded ⟨0.0, it.value, slope⟩)
    (TrialStep.propose .default (.ofObjective f it.x s) it.alpha)
  return ⟨trial, mayAccept, cache, it.calls + calls⟩

/-- The step along a direction, with the evaluations up to it. -/
def searchStep (m : Minimizer ω α) (f : Objective ω α n) (it : Iterate α n) (s : Vec α n)
    (slope : α) : Run ω α n (α × Calls) := do
  let q ← predict f it s slope
  let (step, _) ← Run.searching it q.calls q.cache
    (m.lineSearch.search f it.x s q.trial q.mayAccept)
  return (step.alpha, q.calls + step.calls)

/-- Reports that a direction was replaced, if it was. -/
def announce (d : Descent α n) : Run ω α n Unit :=
  match d.replaced with
  | some slope => Run.report (.restarting slope)
  | none => pure ()

def advance (m : Minimizer ω α) (f : Objective ω α n) (view : Vec α n → Tensor α)
    (it : Iterate α n) : Run ω α n (Advance α n) := do
  let descent := descentRestart it.gradient it.direction
  announce descent
  unless descent.recovered do
    Run.report (.stopping it.iteration descent.slope)
    return .stuck
  let s := descent.direction
  let k := it.iteration + 1
  let (alpha, calls) ← m.searchStep f it s descent.slope
  let x := Vec.moved it.x s alpha
  let (value, gradient) ← Run.evaluate (f.both x)
  let calls := calls + .ofBoth
  unless Scalar.isFinite value do
    throw (.stopped (.stepValue value k) k calls x)
  let verdict ← Run.lift (m.options.tolerances.assess (Vec.maxDiff x it.x) value it.value
    (Vec.infNorm gradient))
  let P ← m.prepare x
  let update := updateDirection P m.options.eta s gradient it.gradient
  let it' : Iterate α n :=
    { iteration := k, x, value, gradient, direction := update.direction, alpha, calls }
  m.notify view it'
  return .moved it' verdict

/-! ## The whole run -/

/-- The last iterate of a run, with the verdict on it and the way the run ended. -/
structure Ending (α : Type) (n : Nat) where
  last : Iterate α n
  verdict : Verdict
  termination : Termination

/-- Iterates until a criterion is met, no direction leads downhill or the steps are used up. -/
def iterate (m : Minimizer ω α) (f : Objective ω α n) (view : Vec α n → Tensor α) :
    (steps : Nat) → Iterate α n → Run ω α n (Ending α n)
  | 0, it => return ⟨it, {}, .iterationLimit⟩
  | steps + 1, it => do
    match ← m.advance f view it with
    | .stuck => return ⟨it, {}, .degenerateDirection⟩
    | .moved it verdict =>
      if verdict.converged then return ⟨it, verdict, .converged⟩
      else iterate m f view steps it

/-- The starting point as the first iterate. -/
def start (m : Minimizer ω α) (f : Objective ω α n) (view : Vec α n → Tensor α) (x : Vec α n) :
    Run ω α n (Iterate α n) := do
  let (value, gradient) ← Run.evaluate (f.both x)
  let calls := Calls.ofBoth
  unless Scalar.isFinite value do
    throw (.stopped (.startValue value) 0 calls x)
  unless Vec.allFinite gradient do
    throw (.stopped (.startGradient (Vec.nonFinite gradient)) 0 calls x)
  let alpha ← Run.lift
    (TrialStep.initial Scalar.nan x gradient value TrialStep.initialShare)
  let it : Iterate α n :=
    { iteration := 0, x, value, gradient, direction := gradient, alpha, calls }
  m.notify view it
  let P ← m.prepare x
  return { it with direction := Vec.neg (P.forward gradient) }

/-- The observers that a run brings with it: a trace, and a display. -/
def ownObservers (o : Options α Limit) : List (Observer α) :=
  (if o.keepsTrace then [.fresh .trace 1] else []) ++
    if o.showTrace then [.fresh .print 1] else []

/-- A run from its first iterate on. The observers are finalized however it ends. -/
def complete (m : Minimizer ω α) (f : Objective ω α n) (view : Vec α n → Tensor α)
    (it : Iterate α n) : Run ω α n (Ending α n) := fun session ↦
  let (result, session) := (m.iterate f view m.options.iterations.steps it).run session
  (result, { session with observers := Observer.finalizeAll session.observers })

/-- A run from a point. -/
def run (m : Minimizer ω α) (f : Objective ω α n) (view : Vec α n → Tensor α) (x : Vec α n) :
    Run ω α n (Ending α n) := do
  m.complete f view (← m.start f view x)

/-- The session as a run finds it: the observers that the run brings with it come first. -/
def opened (m : Minimizer ω α) (session : Session ω α) : Session ω α :=
  { session with observers := ownObservers m.options ++ session.observers }

def results (o : Options α Limit) (view : Vec α n → Tensor α) (x : Vec α n)
    (trace : Array (State α)) (e : Ending α n) : Results α where
  start := view x
  minimum := view e.last.x
  value := e.last.value
  iterations := e.last.iteration
  exhausted := o.iterations.metBy e.last.iteration
  verdict := e.verdict
  tolerances := o.tolerances
  trace := trace
  calls := e.last.calls
  termination := e.termination

def error (view : Vec α n → Tensor α) (trace : Array (State α)) :
    Interrupt α n → RunError α
  | .breakdown b => .breakdown b
  | .stopped cause iteration calls x =>
    .optimizer <| OptimizerError.attach ⟨cause, {}⟩
      { iteration, values := calls.values, gradients := calls.gradients, x := some (view x), trace }

/-- Minimizes an objective from a point, seen by the caller as an array. -/
def minimizeFrom (m : Minimizer ω α) (f : Objective ω α n) (view : Vec α n → Tensor α)
    (x : Vec α n) (session : Session ω α) : Report α × Session ω α :=
  let own := ownObservers m.options
  let (result, after) := (m.run f view x).run (m.opened session)
  let trace := if m.options.keepsTrace then (after.observers.head?.map Observer.seen).getD #[]
    else #[]
  let displayed := if m.options.showTrace then
      (after.observers[own.length - 1]?.map Observer.seen).getD #[]
    else #[]
  let outcome := match result with
    | .ok e => .ok (results m.options view x trace e)
    | .error i => .error (error view trace i)
  (⟨outcome, displayed⟩, { after with observers := after.observers.drop own.length })

/-- Minimizes an objective from an array of any shape. -/
def minimize (m : Minimizer ω α) (x : Tensor α) (f : Objective ω α x.shape.size)
    (session : Session ω α) : Report α × Session ω α :=
  m.minimizeFrom f (⟨x.shape, ·⟩) x.entries session

end Minimizer

end NonlinearCG
