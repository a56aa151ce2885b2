import NonlinearCG.LineSearch.Backtracking
import NonlinearCG.LineSearch.HagerZhang

/-!
# The line searches of this library

A line search that is chosen by name and described by its parameters.
-/

namespace NonlinearCG

/-- A line search with its parameters, over any type of numbers. -/
inductive Strategy (ν : Type) where
  | hagerZhang (p : HagerZhang ν)
  | backtracking (p : Backtracking ν)

namespace Strategy

def map {ν μ : Type} (f : ν → μ) : Strategy ν → Strategy μ
  | hagerZhang p => hagerZhang (p.map f)
  | backtracking p => backtracking (p.map f)

/-- The parameters by name. The counts are the same over all types of numbers. -/
def named {ν : Type} : Strategy ν → List (String × (ν ⊕ Int))
  | hagerZhang p => [("delta", .inl p.delta), ("sigma", .inl p.sigma),
      ("alphamax", .inl p.alphamax), ("rho", .inl p.rho), ("epsilon", .inl p.epsilon),
      ("gamma", .inl p.gamma), ("linesearchmax", .inr p.linesearchmax), ("psi3", .inl p.psi3)]
  | backtracking p => [("c1", .inl p.c1), ("rhohi", .inl p.rhohi), ("rholo", .inl p.rholo),
      ("iterations", .inr p.iterations)]

variable {ω α : Type} [Scalar α]

/-- All parameters are in their ranges. -/
def admissible : Strategy α → Bool
  | hagerZhang p => p.defect?.isNone
  | backtracking p => p.defect?.isNone

def lineSearch : Strategy α → LineSearch ω α
  | hagerZhang p => p.lineSearch
  | backtracking p => p.lineSearch

end Strategy

end NonlinearCG
