import NonlinearCG.LineSearch.Cache
import NonlinearCG.Objective

/-!
# Searching along a ray

The vocabulary shared by all line searches: the reasons for which a search gives up, the events it
reports, and the computations it is made of.

A search works on a *bench*. The bench holds the world of the objective, the cache of the episode
and the events so far. None of these is undone when the search gives up. A search sees the objective
only as a `LineFunction`, which evaluates `φ t = f (x + t s)` and, on request,
`φ' t = ∇f (x + t s) · s`.

Every part of a search counts its evaluations itself: it adds one to its account after each of them,
adds what the parts that it calls have counted, and returns the account with its result. The account
is lost where the part gives up. The bench keeps a tally of the evaluations of its own, `made`,
which no search reads. It is there to be compared with the accounts.
-/

namespace NonlinearCG

/-- The numbers of evaluations of an objective and of its gradient. -/
structure Calls where
  values : Nat := 0
  gradients : Nat := 0
  deriving DecidableEq, Repr

namespace Calls

instance : Add Calls := ⟨fun a b ↦ ⟨a.values + b.values, a.gradients + b.gradients⟩⟩

def ofValue : Calls := ⟨1, 0⟩

def ofBoth : Calls := ⟨1, 1⟩

end Calls

/-- Why a line search cannot honour its contract. -/
inductive SearchError (α : Type) where
  /-- The value or the slope at the zero step is not finite. -/
  | startNotFinite
  /-- The trial step is not a finite step between zero and the largest admissible one. -/
  | stepNotAdmissible (step : α)
  /-- The trial step is not a finite positive number. -/
  | stepNotPositive (step : α)
  /-- The ends of the bracket do not have slopes of opposite sign. -/
  | notDescent (low high : α)
  /-- A secant step led to a value or slope that is not finite. -/
  | secantNotFinite (step : α)
  /-- A bisection led to a value or slope that is not finite. -/
  | bisectionNotFinite (step : α)
  /-- The step was reduced too often. -/
  | tooManyReductions
  /-- The rounds of the search are used up. -/
  | notConverged
  /-- A search of the caller gave up for a reason of its own. -/
  | stated (message : String)

/-- Why a search has no result: a breakdown, or a verdict of the search. -/
inductive Fault (α : Type) where
  | breakdown (cause : Breakdown)
  | search (cause : SearchError α)

/-- What a run reports besides its result. -/
inductive Event (α : Type) where
  /-- No trial step had a finite value and slope. -/
  | noFiniteTrial
  /-- The trial step was accepted at once. -/
  | trialAccepted (step : α)
  /-- The expansion ended at the largest admissible step while looking for finite values. -/
  | expansionExhausted (step limit value slope : α)
  /-- The search direction does not lead downhill and is replaced by steepest descent. -/
  | restarting (slope : α)
  /-- Not even steepest descent leads downhill. -/
  | stopping (iteration : Nat) (slope : α)

/-- How much an event matters. -/
inductive Severity where
  | debug
  | info
  | warning
  deriving DecidableEq, Repr

def Event.severity {α : Type} : Event α → Severity
  | noFiniteTrial | expansionExhausted .. => .warning
  | trialAccepted _ | restarting _ => .debug
  | stopping .. => .info

/-- A function along a ray. -/
structure LineFunction (ω α : Type) where
  /-- The value at a step. -/
  value : α → Eval ω α
  /-- Value and slope at a step. -/
  both : α → Eval ω (α × α)

/-- What a search works on. -/
structure Bench (ω α : Type) where
  world : ω
  cache : Cache α := {}
  /-- The evaluations that were made on the bench. -/
  made : Calls := {}
  log : Array (Event α) := #[]

/-- A part of a line search. What it did to the bench survives its failure. -/
abbrev Search (ω α : Type) := ExceptT (Fault α) (StateM (Bench ω α))

/-- A sample with its position in the cache. -/
structure Point (α : Type) extends Sample α where
  index : Nat

namespace Search

variable {ω α : Type}

/-- Gives up with a verdict of the search. -/
def giveUp {A : Type} (e : SearchError α) : Search ω α A := throw (.search e)

/-- A result that may be missing because of a breakdown. -/
def lift {A : Type} : Except Breakdown A → Search ω α A
  | .ok a => pure a
  | .error b => throw (.breakdown b)

/-- Runs an evaluation on the world of the bench. -/
def evaluate {A : Type} (cost : Calls) (act : Eval ω A) : Search ω α A := do
  let bench ← get
  let (result, world) := act.run bench.world
  set { bench with world, made := bench.made + cost }
  lift result

def valueAt (φ : LineFunction ω α) (t : α) : Search ω α α := evaluate .ofValue (φ.value t)

def sampleAt (φ : LineFunction ω α) (t : α) : Search ω α (Sample α) := do
  let (v, d) ← evaluate .ofBoth (φ.both t)
  return ⟨t, v, d⟩

def report (e : Event α) : Search ω α Unit :=
  modify fun bench ↦ { bench with log := bench.log.push e }

/-- Counts one evaluation that was not finite. -/
def countFailure : Search ω α Unit :=
  modify fun bench ↦ { bench with cache := bench.cache.fail 1 }

/-- Appends a sample to the cache and says where it stands. -/
def keep (s : Sample α) : Search ω α (Point α) := do
  let bench ← get
  set { bench with cache := bench.cache.push s }
  return { s with index := bench.cache.size }

def cached (i : Nat) : Search ω α (Point α) := do
  match (← get).cache.get? i with
  | some s => return { s with index := i }
  | none => throw (.breakdown .missingEntry)

end Search

/-! ## The restriction of an objective to a ray -/

/-- The buffers of a search, which show the last point and the last gradient that it asked for, and
the world of the objective. -/
structure Trial (ω α : Type) (n : Nat) where
  world : ω
  point : Vec α n
  gradient : Vec α n

namespace LineFunction

variable {ω α : Type} [Scalar α] {n : Nat}

/-- Runs an evaluation on the objective's own world. -/
def onWorld {A : Type} (act : Eval ω A) : Eval (Trial ω α n) A := do
  let trial ← get
  let (result, world) := act.run trial.world
  set { trial with world }
  match result with
  | .ok a => return a
  | .error b => throw b

/-- The objective `f` on the ray from `x` in the direction `s`. The slope is no number where the
value is not finite. -/
def ofObjective (f : Objective ω α n) (x s : Vec α n) : LineFunction (Trial ω α n) α where
  value t := do
    modify fun trial ↦ { trial with point := Vec.along x s t }
    onWorld (f.value (Vec.along x s t))
  both t := do
    modify fun trial ↦ { trial with point := Vec.along x s t }
    let (v, g) ← onWorld (f.both (Vec.along x s t))
    modify fun trial ↦ { trial with gradient := g }
    return (v, if Scalar.isFinite v then Vec.dot g s else Scalar.nan)

end LineFunction

/-! ## Strategies -/

/-- An accepted step with the number of evaluations that finding it took, as the search reports
it. -/
structure Step (α : Type) where
  alpha : α
  calls : Calls

/-- A line search: from the objective, the point, the direction and a trial step to a step. The
flag says that the trial step minimizes a quadratic fit and may be accepted at once. -/
structure LineSearch (ω α : Type) where
  search : {n : Nat} → Objective ω α n → (x s : Vec α n) → (trial : α) → (mayAccept : Bool) →
    Search (Trial ω α n) α (Step α)

end NonlinearCG
