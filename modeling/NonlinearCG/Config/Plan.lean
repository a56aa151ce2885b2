import NonlinearCG.Config.Schema
import NonlinearCG.LineSearch.Strategy
import NonlinearCG.Minimizer

/-!
# Building runs

A valid run file still has to describe a run that can be built: the problem has to exist in the
given dimension, starting point and weights have to have its size, and the constructors of the parts
check their parameters once more.
-/

namespace NonlinearCG

/-- The parts of a minimizer. -/
structure Plan (α : Type) where
  options : Options α Int
  strategy : Strategy α
  weighting : Weighting α

/-- A minimizer with a problem and a starting point. -/
structure Job (α : Type) where
  plan : Plan α
  problem : Problem α
  start : Array α

/-- Why a valid run file describes no run. -/
inductive BuildError (α : Type) where
  | problem (e : ProblemError)
  /-- A starting point of another size than the problem's. -/
  | startSize (given : Nat) (problem : Problem α)
  /-- A line search with a parameter outside its range. -/
  | strategy (s : Strategy α)
  /-- A number of weights that does not fit the number of variables. -/
  | weights (given : Nat) (dimension : Int)
  /-- An option outside its range. -/
  | option (o : Options α Int) (d : Options.Defect)

variable {α : Type} [Scalar α]

/-! ## Parts -/

def LineSearchConfig.parameters (c : LineSearchConfig α) : Strategy α :=
  match c.name with
  | .hagerzhang | .hagerZhang => .hagerZhang
    { HagerZhang.default with
      delta := c.delta
      sigma := c.sigma
      rho := c.rho
      epsilon := c.epsilon
      gamma := c.gamma
      linesearchmax := c.linesearchmax }
  | .backtracking => .backtracking
    { c1 := c.c1, rhohi := c.rhohi, rholo := c.rholo, iterations := c.maxIterations }

def LineSearchConfig.build (c : LineSearchConfig α) : Except (BuildError α) (Strategy α) :=
  if c.parameters.admissible then .ok c.parameters else .error (.strategy c.parameters)

/-- The number of weights; one for all variables fits any number. -/
def Weights.size : Weights α → Nat
  | uniform _ => 1
  | each ws => ws.length

def Weights.spread (n : Nat) : Weights α → Except Breakdown (Array α)
  | uniform w => .ok (Array.replicate n w)
  | each ws => return (← Vec.spreadTo n ws.toArray).toArray

/-- The preconditioner that a run file asks for, for a number of variables. -/
def PreconditionerConfig.build (c : PreconditionerConfig α) (dimension : Int) :
    Except (BuildError α) (Weighting α) :=
  match c.name with
  | .identity | .none => .ok .identity
  | .diagonal =>
    let weights := c.weights.getD (.uniform 1.0)
    if dimension < 0 then .error (.weights weights.size dimension)
    else match weights.spread dimension.toNat with
      | .ok p => .ok (.diagonal p)
      | .error _ => .error (.weights weights.size dimension)

/-- The limit on the iterations that an integer stands for. -/
def Limit.ofInt? (k : Int) : Option Limit := if k ≤ 0 then none else some ⟨k.toNat, true⟩

def RunConfig.plan (c : RunConfig α) (dimension : Int) : Except (BuildError α) (Plan α) := do
  let strategy ← c.lineSearch.build
  let weighting ← c.preconditioner.build dimension
  match c.options.check Limit.ofInt? with
  | .ok _ => return { options := c.options, strategy, weighting }
  | .error d => throw (.option c.options d)

def ProblemConfig.build (c : ProblemConfig α) : Except (BuildError α) (Problem α × Array α) :=
  match Problem.ofDimension? c.family c.dimension with
  | .error e => .error (.problem e)
  | .ok problem => match c.start with
    | none => .ok (problem, problem.initial.toArray)
    | some x =>
      if x.length = problem.dimension then .ok (problem, x.toArray)
      else .error (.startSize x.length problem)

def RunConfig.job (c : RunConfig α) : Except (BuildError α) (Job α) := do
  let (problem, start) ← c.problem.build
  return { plan := ← c.plan problem.dimension, problem, start }

/-! ## Running -/

def Plan.minimizer {ω : Type} (p : Plan α) : Minimizer ω α where
  options := p.options.map id fun k ↦ ⟨k.toNat, true⟩
  lineSearch := p.strategy.lineSearch
  refresh := ownRefresh

/-- Minimizes the problem from the starting point. -/
def Job.run (t : Job α) : Report α :=
  (t.plan.minimizer.minimize (.ofVec ⟨t.start, rfl⟩) (t.problem.objective _)
    { world := (), preconditioner := { weighting := t.plan.weighting } }).1

end NonlinearCG
