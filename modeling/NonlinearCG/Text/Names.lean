/-!
# Names chosen by users

Users choose among a few names, in any case of letters.
-/

namespace NonlinearCG.Text

/-- A text in lower case. The Kelvin sign is the only letter beyond the Latin ones whose lower case
is one of them. -/
def lowered (s : String) : String := s.map fun c ↦ if c.toNat = 8490 then 'k' else c.toLower

/-- The member of a list that has a name, in any case of letters. -/
def choose? {A : Type} (all : List A) (name : A → String) (s : String) : Option A :=
  all.find? (name · == lowered s)

def unknownName (what s : String) (names : List String) : String :=
  s!"Unknown {what} '" ++ s ++ "'. Choose from: " ++ ", ".intercalate names

end NonlinearCG.Text
