import NonlinearCG.Convergence

/-!
# Options of a run

The options are the same data before and after they have been checked; only the type of their
numbers changes. As given, numbers still know how they were written and the limit on the iterations
may be any number. As used, the numbers are scalars and the limit is a `Limit`.
-/

namespace NonlinearCG

/-- A bound on the number of iterations. A bound that is no whole number cuts a run off without
ever being met exactly. -/
structure Limit where
  /-- The number of iterations that are allowed. -/
  steps : Nat
  /-- The bound is this whole number. -/
  attainable : Bool := true
  deriving DecidableEq, Repr

/-- The bound is met exactly. -/
def Limit.metBy (l : Limit) (k : Nat) : Bool := l.attainable && k == l.steps

/-- The options of a run. -/
structure Options (ν κ : Type) where
  xtol : ν
  ftol : ν
  grtol : ν
  iterations : κ
  storeTrace : Bool := false
  showTrace : Bool := false
  extendedTrace : Bool := false
  /-- The parameter of the lower bound on the weight of the last direction. -/
  eta : ν

namespace Options

def map {ν ν' κ κ' : Type} (f : ν → ν') (g : κ → κ') (o : Options ν κ) : Options ν' κ' where
  xtol := f o.xtol
  ftol := f o.ftol
  grtol := f o.grtol
  iterations := g o.iterations
  storeTrace := o.storeTrace
  showTrace := o.showTrace
  extendedTrace := o.extendedTrace
  eta := f o.eta

inductive Defect where
  | xtol
  | ftol
  | grtol
  | iterations
  | eta
  deriving DecidableEq, Repr

variable {α κ : Type} [Scalar α]

/-- The default options, with a limit of 1000 iterations in the form that `limit` gives it. -/
def default (limit : Nat → κ) : Options α κ where
  xtol := 1e-32
  ftol := 1e-8
  grtol := 1e-8
  iterations := limit 1000
  eta := 0.4

/-- The checked options, or the first one outside its range. The limit has passed if `limit?` gives
one. -/
def check (limit? : κ → Option Limit) (o : Options α κ) : Except Defect (Options α Limit) :=
  if o.xtol < 0.0 then .error .xtol
  else if o.ftol < 0.0 then .error .ftol
  else if o.grtol < 0.0 then .error .grtol
  else match limit? o.iterations with
    | none => .error .iterations
    | some limit =>
      if o.eta ≤ 0.0 then .error .eta else .ok (o.map id fun _ ↦ limit)

def tolerances (o : Options α κ) : Tolerances α := ⟨o.xtol, o.ftol, o.grtol⟩

def keepsTrace (o : Options α κ) : Bool := o.storeTrace || o.extendedTrace

end Options

end NonlinearCG
