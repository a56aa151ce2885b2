import NonlinearCG.LineSearch.Search
import NonlinearCG.LineSearch.Wolfe

/-!
# The Hager–Zhang line search

A search for a step that satisfies the Wolfe or the approximate Wolfe conditions. It has three
stages:

* *first trial*: the trial step is reduced until value and slope are finite, and may be accepted;
* *bracketing*: the step is expanded until two cached points enclose a minimizer;
* *narrowing*: double secant steps, and bisections where those are too slow, shrink the bracket.

A bracket is a pair of cached points. At its low end the value is at most the limit
`φ 0 + ε |φ 0|` and the slope is negative, at its high end the slope is not negative. Bracketing
and narrowing share one number of rounds.
-/

namespace NonlinearCG

/-- The parameters of the search, over any type of numbers. -/
structure HagerZhang (ν : Type) where
  /-- Sufficient decrease. -/
  delta : ν
  /-- Curvature. -/
  sigma : ν
  /-- The largest admissible step. -/
  alphamax : ν
  /-- Expansion factor while bracketing. -/
  rho : ν
  /-- Relative tolerance on the value. -/
  epsilon : ν
  /-- Shrinkage of the bracket that a round has to reach. -/
  gamma : ν
  /-- The rounds are numbered from 1 and end before this number. -/
  linesearchmax : Int
  /-- Reduction of the trial step while evaluations are not finite. -/
  psi3 : ν

/-- The number of attempts at finding a finite evaluation by shrinking a step: as many halvings
lead from 1 to the spacing of doubles at 1. -/
def finiteAttempts : Nat := 52

namespace HagerZhang

def map {ν μ : Type} (f : ν → μ) (p : HagerZhang ν) : HagerZhang μ where
  delta := f p.delta
  sigma := f p.sigma
  alphamax := f p.alphamax
  rho := f p.rho
  epsilon := f p.epsilon
  gamma := f p.gamma
  linesearchmax := p.linesearchmax
  psi3 := f p.psi3

variable {ω α : Type} [Scalar α]

def default : HagerZhang α where
  delta := 0.1
  sigma := 0.9
  alphamax := Scalar.infinity
  rho := 5.0
  epsilon := 1e-6
  gamma := 0.66
  linesearchmax := 50
  psi3 := 0.1

/-! ## Admissible parameters -/

/-- The first parameter outside its range. -/
inductive Defect where
  | delta
  | sigma
  | alphamax
  | rho
  | epsilon
  | gamma
  | linesearchmax
  | psi3
  deriving DecidableEq, Repr

/-- The first parameter outside its range, if there is one. A value that is no number is refused
exactly by the parameters whose range is stated as what they have to satisfy. -/
def defect? (p : HagerZhang α) : Option Defect :=
  if ¬(0.0 < p.delta ∧ p.delta < 0.5) then some .delta
  else if ¬(p.delta ≤ p.sigma ∧ p.sigma < 1.0) then some .sigma
  else if p.alphamax ≤ 0.0 then some .alphamax
  else if p.rho ≤ 1.0 then some .rho
  else if p.epsilon < 0.0 then some .epsilon
  else if ¬(0.0 < p.gamma ∧ p.gamma < 1.0) then some .gamma
  else if p.linesearchmax ≤ 0 then some .linesearchmax
  else if ¬(0.0 < p.psi3 ∧ p.psi3 < 1.0) then some .psi3
  else none

/-! ## Probing

Past the first trial every evaluation either enters the cache or ends the search. -/

def finite (s : Sample α) : Bool := Scalar.bothFinite s.value s.slope

/-- Caches the sample at a step; gives up where it is not finite. -/
def probe (φ : LineFunction ω α) (refusal : α → SearchError α) (t : α) :
    Search ω α (Point α) := do
  let s ← Search.sampleAt φ t
  if finite s then Search.keep s else Search.giveUp (refusal t)

/-! ## Keeping a bracket -/

/-- Halves the interval between a low point and a high point whose value is above the limit, until
a point of nonnegative slope is found or the interval is as narrow as the scalars allow. -/
def bisect (φ : LineFunction ω α) (limit : α) :
    (fuel : Nat) → (calls : Calls) → (low high : Point α) →
      Search ω α ((Point α × Point α) × Calls)
  | fuel, calls, low, high =>
    if Scalar.spacing high.step < high.step - low.step then
      match fuel with
      | 0 => throw (.breakdown .endlessHalving)
      | fuel + 1 => do
        let mid ← probe φ .bisectionNotFinite ((low.step + high.step) / 2.0)
        let calls := calls + .ofBoth
        if 0.0 ≤ mid.slope then return ((low, mid), calls)
        else if mid.value ≤ limit then bisect φ limit fuel calls mid high
        else bisect φ limit fuel calls low mid
    else return ((low, high), calls)

/-- Halves an interval as often as its width requires. -/
def bisectBetween (φ : LineFunction ω α) (limit : α) (low high : Point α) :
    Search ω α ((Point α × Point α) × Calls) :=
  bisect φ limit (Scalar.halvings low.step high.step) {} low high

/-- Of a bracket and a further point, two points that still form a bracket. -/
def update (φ : LineFunction ω α) (limit : α) (low high mid : Point α) :
    Search ω α ((Point α × Point α) × Calls) :=
  if mid.step < low.step ∨ high.step < mid.step then return ((low, high), {})
  else if 0.0 ≤ mid.slope then return ((low, mid), {})
  else if mid.value ≤ limit then return ((mid, high), {})
  else bisectBetween φ limit low mid

/-- What a double secant step leads to. -/
inductive Narrowing (α : Type) where
  /-- A point that passes the acceptance test. -/
  | accepted (point : Point α)
  /-- A bracket inside the old one. -/
  | bracket (low high : Point α)

/-- The step that the second half of a double secant step tries: the secant on the side where the
first half replaced an end of the bracket, or else the first half's step again. -/
def secondSecant (low high low' high' mid : Point α) : Except Breakdown α :=
  if high'.index = mid.index then secant high.step high'.step high.slope high'.slope
  else if low'.index = mid.index then secant low.step low'.step low.slope low'.slope
  else .ok mid.step

/-- A secant step on the whole bracket, and if that replaces an end, one on that side. -/
def doubleSecant (φ : LineFunction ω α) (test : WolfeTest α) (low high : Point α) :
    Search ω α (Narrowing α × Calls) := do
  unless low.slope < 0.0 ∧ 0.0 ≤ high.slope do
    Search.giveUp (.notDescent low.slope high.slope)
  let c ← Search.lift (secant low.step high.step low.slope high.slope)
  let mid ← probe φ .secantNotFinite c
  let calls := Calls.ofBoth
  if ← Search.lift (test.accepts mid.toSample) then return (.accepted mid, calls)
  let ((low', high'), more) ← update φ test.limit low high mid
  let calls := calls + more
  let c ← Search.lift (secondSecant low high low' high' mid)
  if low'.step ≤ c ∧ c ≤ high'.step then
    let mid ← probe φ .secantNotFinite c
    let calls := calls + .ofBoth
    if ← Search.lift (test.accepts mid.toSample) then return (.accepted mid, calls)
    let ((low'', high''), more) ← update φ test.limit low' high' mid
    return (.bracket low'' high'', calls + more)
  else return (.bracket low' high', calls)

/-! ## First trial -/

/-- Reduces a trial step until its sample is finite. -/
def reduce (p : HagerZhang α) (φ : LineFunction ω α) :
    (attempts : Nat) → (calls : Calls) → Sample α → Search ω α (Sample α × Calls)
  | 0, calls, s => return (s, calls)
  | attempts + 1, calls, s => do
    if finite s then return (s, calls)
    Search.countFailure
    let s ← Search.sampleAt φ (s.step * p.psi3)
    reduce p φ attempts (calls + .ofBoth) s

/-! ## Bracketing -/

/-- Where an expansion leads to. -/
inductive Expansion (α : Type) where
  /-- The search ends with this step. -/
  | ended (step : α)
  /-- A further point, still to be judged, and the largest step that is left. -/
  | reached (point : Point α) (alphamax : α)

/-- Where bracketing leads to. -/
inductive Bracketing (α : Type) where
  /-- The search ends with this step. -/
  | ended (step : α)
  /-- A bracket, and the rounds that are left. -/
  | bracket (low high : Point α) (rounds : Nat)

/-- The last cached point before a position whose value is at most the limit, or else the first
one. -/
def lowEnd (limit : α) : Nat → Search ω α (Point α)
  | 0 => Search.cached 0
  | i + 1 => do
    let s ← Search.cached i
    if s.value ≤ limit then return s else lowEnd limit i

/-- Where a retreat leads to. -/
structure Retreat (α : Type) where
  /-- The last sample. -/
  sample : Sample α
  /-- The largest step that is left. -/
  alphamax : α
  /-- The attempts that are left. -/
  attempts : Nat

/-- Halves the way from a step to an expanded one that is not finite. -/
def retreat (φ : LineFunction ω α) (cold : α) :
    (attempts : Nat) → (calls : Calls) → (alphamax : α) → Sample α →
      Search ω α (Retreat α × Calls)
  | 0, calls, alphamax, s => return (⟨s, alphamax, 0⟩, calls)
  | attempts + 1, calls, alphamax, s => do
    if !finite s && Scalar.nextUp cold < s.step then
      Search.countFailure
      let s' ← Search.sampleAt φ ((cold + s.step) / 2.0)
      retreat φ cold attempts (calls + .ofBoth) s.step s'
    else return (⟨s, alphamax, attempts + 1⟩, calls)

/-- The step after one that still leads downhill, or none if the largest step is as good as
reached. -/
def expandedStep (p : HagerZhang α) (alphamax cold : α) : Option α :=
  let c := cold * p.rho
  if alphamax < c then
    let c := (alphamax + cold) / 2.0
    if c == cold || alphamax ≤ Scalar.nextUp c then none else some c
  else some c

/-- Expands the step beyond a point that still leads downhill. -/
def expand (p : HagerZhang α) (φ : LineFunction ω α) (alphamax : α) (tip : Point α) :
    Search ω α (Expansion α × Calls) := do
  match expandedStep p alphamax tip.step with
  | none => return (.ended tip.step, {})
  | some c =>
    let s ← Search.sampleAt φ c
    let (⟨s, alphamax, attempts⟩, calls) ←
      retreat φ tip.step (finiteAttempts - 1) .ofBoth alphamax s
    if !finite s then return (.ended tip.step, calls)
    if s.slope < 0.0 && s.step == alphamax then
      if attempts = 0 then
        Search.report (.expansionExhausted s.step alphamax s.value s.slope)
      return (.ended s.step, calls)
    let tip ← Search.keep s
    return (.reached tip alphamax, calls)

/-- Looks for a bracket, from the last cached point on. -/
def bracket (p : HagerZhang α) (φ : LineFunction ω α) (limit : α) :
    (rounds : Nat) → (calls : Calls) → (alphamax : α) → (tip : Point α) →
      Search ω α (Bracketing α × Calls)
  | 0, _, _, _ => Search.giveUp .notConverged
  | rounds + 1, calls, alphamax, tip =>
    if 0.0 ≤ tip.slope then do
      let low ← lowEnd limit tip.index
      return (.bracket low tip rounds, calls)
    else if limit < tip.value then do
      let low ← Search.cached (tip.index - 1)
      let ((low, high), more) ← bisectBetween φ limit low tip
      return (.bracket low high rounds, calls + more)
    else do
      let (r, more) ← expand p φ alphamax tip
      match r with
      | .ended t => return (.ended t, calls + more)
      | .reached tip alphamax => bracket p φ limit rounds (calls + more) alphamax tip

/-! ## Narrowing -/

/-- Neither end of a pair of points is noticeably below the other. -/
def flat (low high : Point α) : Bool := high.value ≤ Scalar.nextUp low.value

/-- Where a round of narrowing leads to. -/
inductive Round (α : Type) where
  /-- The search ends with this step. -/
  | ended (step : α)
  /-- A bracket for the next round. -/
  | narrowed (low high : Point α)

/-- One round of narrowing: a double secant step, and a bisection if that is too slow. The search
ends with an accepted point, or with the low end of a bracket that cannot be shrunk any further. -/
def round (p : HagerZhang α) (φ : LineFunction ω α) (test : WolfeTest α) (low high : Point α) :
    Search ω α (Round α × Calls) := do
  if high.step - low.step ≤ Scalar.spacing high.step then return (.ended low.step, {})
  let (r, calls) ← doubleSecant φ test low high
  match r with
  | .accepted point => return (.ended point.step, calls)
  | .bracket low' high' =>
    if high'.step - low'.step < p.gamma * (high.step - low.step) then
      if flat low high && flat low' high' then return (.ended low'.step, calls)
      return (.narrowed low' high', calls)
    else
      let mid ← probe φ .bisectionNotFinite ((low'.step + high'.step) / 2.0)
      let calls := calls + .ofBoth
      let ((low'', high''), more) ← update φ test.limit low' high' mid
      return (.narrowed low'' high'', calls + more)

/-- Shrinks a bracket, round after round. -/
def narrow (p : HagerZhang α) (φ : LineFunction ω α) (test : WolfeTest α) :
    (rounds : Nat) → (calls : Calls) → (low high : Point α) → Search ω α (Step α)
  | 0, _, _, _ => Search.giveUp .notConverged
  | rounds + 1, calls, low, high => do
    let (r, more) ← round p φ test low high
    match r with
    | .ended t => return ⟨t, calls + more⟩
    | .narrowed low high => narrow p φ test rounds (calls + more) low high

/-! ## The search -/

/-- The acceptance test that belongs to the sample at the zero step. -/
def test (p : HagerZhang α) (start : Sample α) : WolfeTest α where
  value := start.value
  slope := start.slope
  limit := start.value + p.epsilon * Scalar.abs start.value
  delta := p.delta
  sigma := p.sigma

/-- The first trial and the bracketing, from a trial step that may be accepted at once. -/
def approach (p : HagerZhang α) (φ : LineFunction ω α) (start : Sample α) (trial : α)
    (mayAccept : Bool) : Search ω α (Bracketing α × Calls) := do
  unless finite start do Search.giveUp .startNotFinite
  unless 0.0 < trial ∧ Scalar.isFinite trial ∧ trial ≤ p.alphamax do
    Search.giveUp (.stepNotAdmissible trial)
  let test := p.test start
  let first ← Search.sampleAt φ trial
  let (s, calls) ← reduce p φ (finiteAttempts - 1) .ofBoth first
  unless finite s do
    Search.report .noFiniteTrial
    return (.ended 0.0, calls)
  let tip ← Search.keep s
  if mayAccept && finite first then
    if ← Search.lift (test.accepts s) then
      Search.report (.trialAccepted s.step)
      return (.ended s.step, calls)
  bracket p φ test.limit (p.linesearchmax - 1).toNat calls p.alphamax tip

/-- The accepted step, from a trial step that may be accepted at once. -/
def step (p : HagerZhang α) (φ : LineFunction ω α) (trial : α) (mayAccept : Bool) :
    Search ω α (Step α) := do
  let start ← Search.cached 0
  let (r, calls) ← approach p φ start.toSample trial mayAccept
  match r with
  | .ended t => return ⟨t, calls⟩
  | .bracket low high rounds => narrow p φ (p.test start.toSample) rounds calls low high

def lineSearch (p : HagerZhang α) : LineSearch ω α where
  search f x s trial mayAccept := step p (.ofObjective f x s) trial mayAccept

end HagerZhang

end NonlinearCG
