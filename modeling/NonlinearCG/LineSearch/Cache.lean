/-!
# The line search cache

One episode of a line search samples the objective along a ray. The cache keeps the samples in the
order in which they were taken, the zero step first, and counts the samples that were refused
because they were not finite.
-/

namespace NonlinearCG

/-- The value and slope along a ray at one step. -/
structure Sample (α : Type) where
  step : α
  value : α
  slope : α

/-- The samples of one episode. -/
structure Cache (α : Type) where
  samples : Array (Sample α) := #[]
  /-- The number of evaluations that were not finite. -/
  failures : Nat := 0

namespace Cache

variable {α : Type}

def size (c : Cache α) : Nat := c.samples.size

def push (c : Cache α) (s : Sample α) : Cache α := { c with samples := c.samples.push s }

/-- Counts further evaluations that were not finite. -/
def fail (c : Cache α) (k : Nat) : Cache α := { c with failures := c.failures + k }

/-- The sample at a position. -/
def get? (c : Cache α) (i : Nat) : Option (Sample α) := c.samples[i]?

/-- The cache of an episode that has taken one sample. -/
def seeded (s : Sample α) : Cache α := { samples := #[s] }

end Cache

end NonlinearCG
